import Ish.History.Search
import Ish.History.Usage

/-!
# Nearest — the recorded directory that is closest

`context_usage` of `src/history.rs` looks for the nearest directory of an entry
that is `cwd` or above it. It scans the directories of the entry, or walks up
from `cwd`, whichever are fewer. The walk compares components; the scan also
wants the bytes of `cwd` to start with those of the directory as it was first
recorded, so it misses a directory that was recorded under another spelling.
-/

namespace Ish.History

open Ish.Lib List Option
open UnixPath
open Ish.HistoryLog (Occurrence)

/-! ## The nearest of some recorded directories -/

/-- `cwd` is so many components below a directory. -/
def Below (cwd : Path) (directory : List Component) (distance : Nat) : Prop :=
  directory ≠ [] ∧ ∃ rest, directory ++ rest = components cwd ∧ rest.length = distance

/-- No recorded directory is closer. -/
def NoneCloser (recorded : List Component → Option Usage) (cwd : Path) (distance : Nat) : Prop :=
  ∀ other closer, Below cwd other closer → closer < distance → recorded other = none

/-- The nearest recorded directory, by its distance and usage, where there is one. -/
def IsNearest (recorded : List Component → Option Usage) (cwd : Path) :
    Option (Nat × Usage) → Prop
  | some (distance, usage) => NoneCloser recorded cwd distance ∧
      ∃ directory, Below cwd directory distance ∧ recorded directory = some usage
  | none => ∀ directory distance, Below cwd directory distance → recorded directory = none

section Below

variable {cwd : Path} {directory other : List Component} {distance : Nat}

theorem eq_of_append (h : directory ++ rest = other ++ more)
    (hlength : rest.length = more.length) : directory = other :=
  (append_inj' h hlength).1

theorem Below.unique (h : Below cwd directory distance) (h' : Below cwd other distance) :
    directory = other := by
  obtain ⟨_, rest, hrest, hlength⟩ := h
  obtain ⟨_, more, hmore, hlength'⟩ := h'
  exact eq_of_append (hrest.trans hmore.symm) (hlength.trans hlength'.symm)

theorem Below.lt (h : Below cwd directory distance) :
    distance < (components cwd).length := by
  obtain ⟨hne, rest, hrest, rfl⟩ := h
  have hpos := length_pos_iff.mpr hne
  rw [← hrest, length_append]
  omega

theorem below_take (h : distance < (components cwd).length) :
    Below cwd ((components cwd).take ((components cwd).length - distance))
      distance := by
  refine ⟨?_, _, take_append_drop _ _, ?_⟩
  · intro hnil
    have hlength := congrArg List.length hnil
    rw [length_take, length_nil] at hlength
    omega
  · rw [length_drop]
    omega

variable {recorded : List Component → Option Usage} {usage : Usage}
  {nearest nearest' : Option (Nat × Usage)}

theorem IsNearest.unique (h : IsNearest recorded cwd nearest)
    (h' : IsNearest recorded cwd nearest') : nearest = nearest' := by
  have hone : ∀ {found other : Nat × Usage}, IsNearest recorded cwd (some found) →
      IsNearest recorded cwd (some other) → found.1 ≤ other.1 := by
    intro found other hfound hother
    by_contra hlt
    obtain ⟨directory, hbelow, husage⟩ := hother.2
    rw [hfound.1 _ _ hbelow (Nat.lt_of_not_le hlt)] at husage
    cases husage
  have habsent : ∀ {found : Nat × Usage}, IsNearest recorded cwd none →
      ¬ IsNearest recorded cwd (some found) := by
    intro found hnone hfound
    obtain ⟨directory, hbelow, husage⟩ := hfound.2
    rw [hnone _ _ hbelow] at husage
    cases husage
  cases nearest with
  | none =>
    cases nearest' with
    | none => rfl
    | some other => exact absurd h' (habsent h)
  | some found =>
    cases nearest' with
    | none => exact absurd h (habsent h')
    | some other =>
      have hsame : found.1 = other.1 := Nat.le_antisymm (hone h h') (hone h' h)
      obtain ⟨directory, hbelow, husage⟩ := h.2
      obtain ⟨directory', hbelow', husage'⟩ := h'.2
      rw [hsame] at hbelow
      rw [hbelow.unique hbelow', husage', some.injEq] at husage
      rw [Prod.ext hsame husage.symm]

end Below

/-! ## Walking up -/

/-- The walk over the ancestors, whatever is recorded. -/
def walkUp (recorded : List Component → Option Usage) :
    Nat → List (List Component) → Option (Nat × Usage)
  | _, [] => none
  | distance, directory :: ancestors =>
    match recorded directory with
    | some usage => some (distance, usage)
    | none => walkUp recorded (distance + 1) ancestors

theorem Tables.nearestAncestor_eq (tables : Tables) (map : List (Nat × Usage)) (distance : Nat)
    (directories : List (List Component)) :
    tables.nearestAncestor map distance directories =
      walkUp (fun directory => (tables.directory_codes directory).bind (map.lookup ·)) distance
        directories := by
  induction directories generalizing distance with
  | nil => rfl
  | cons directory directories ih =>
    cases hcode : (tables.directory_codes directory).bind (map.lookup ·) with
    | none => simp only [Tables.nearestAncestor, walkUp, hcode, ih]
    | some usage => simp only [Tables.nearestAncestor, walkUp, hcode]

section Walking

variable (recorded : List Component → Option Usage)

theorem walkUp_spec (start : Nat) (directories : List (List Component)) :
    match walkUp recorded start directories with
    | some (distance, usage) => ∃ steps, distance = start + steps ∧
        (∃ directory, directories[steps]? = some directory ∧ recorded directory = some usage) ∧
        ∀ earlier < steps, ∀ directory, directories[earlier]? = some directory →
          recorded directory = none
    | none => ∀ directory ∈ directories, recorded directory = none := by
  induction directories generalizing start with
  | nil => simp [walkUp]
  | cons directory directories ih =>
    rw [walkUp]
    cases hrecorded : recorded directory with
    | some usage =>
      exact ⟨0, rfl, ⟨directory, rfl, hrecorded⟩, fun earlier h => absurd h (Nat.not_lt_zero _)⟩
    | none =>
      have hrest := ih (start + 1)
      cases hwalk : walkUp recorded (start + 1) directories with
      | none =>
        rw [hwalk] at hrest
        intro other hother
        rcases mem_cons.mp hother with rfl | hmem
        · exact hrecorded
        · exact hrest other hmem
      | some found =>
        rw [hwalk] at hrest
        obtain ⟨steps, hdistance, hfound, hearlier⟩ := hrest
        refine ⟨steps + 1, by omega, hfound, ?_⟩
        intro earlier hlt other hother
        cases earlier with
        | zero =>
          cases hother
          exact hrecorded
        | succ earlier => exact hearlier earlier (by omega) other hother

/-- **Walking up** from an absolute path ends at the nearest directory. -/
theorem walkUp_isNearest (hroot : IsAbsolute cwd) :
    IsNearest recorded cwd (walkUp recorded 0 (ancestors cwd)) := by
  -- The directory at a distance is the ancestor with that index.
  have hindex : ∀ directory distance, Below cwd directory distance →
      (ancestors cwd)[distance]? = some directory := by
    intro directory distance hbelow
    rw [getElem?_ancestors hroot hbelow.lt, (below_take hbelow.lt).unique hbelow]
  have hspec := walkUp_spec recorded 0 (ancestors cwd)
  cases hwalk : walkUp recorded 0 (ancestors cwd) with
  | none =>
    rw [hwalk] at hspec
    exact fun directory distance hbelow =>
      hspec directory (mem_of_getElem? (hindex directory distance hbelow))
  | some found =>
    rw [hwalk] at hspec
    obtain ⟨steps, hdistance, ⟨directory, hdirectory, husage⟩, hearlier⟩ := hspec
    rw [Nat.zero_add] at hdistance
    have hlt : steps < (components cwd).length := by
      rw [← length_ancestors hroot]
      exact (List.getElem?_eq_some_iff.mp hdirectory).1
    rw [getElem?_ancestors hroot hlt, some.injEq] at hdirectory
    refine ⟨?_, directory, ?_, husage⟩
    · intro other closer hbelow hcloser
      exact hearlier closer (by omega) other (hindex other closer hbelow)
    · rw [hdistance, ← hdirectory]
      exact below_take hlt

end Walking

/-! ## The rows of an entry -/

/-- The directories with a usage of their own, by code. -/
def detailRows (detail : Option DirectoryDetail) : List (Nat × Usage) :=
  match detail with
  | some (.Tracked tracked usage) => [(tracked, usage)]
  | some (.Many map) => map
  | none => []

theorem lookup_eq_some {rows : List (Nat × Usage)} (h : (rows.map Prod.fst).Nodup) : rows.lookup code = some usage ↔ (code, usage) ∈ rows := by
  induction rows with
  | nil => simp
  | cons row rows ih =>
    obtain ⟨key, kept⟩ := row
    rw [map_cons, nodup_cons] at h
    rw [lookup_cons, mem_cons, Prod.mk.injEq]
    by_cases hcode : code = key
    · subst hcode
      have habsent : (code, usage) ∉ rows := fun hmem =>
        h.1 (mem_map.mpr ⟨(code, usage), hmem, rfl⟩)
      simp [habsent, eq_comm]
    · simp [beq_false_of_ne hcode, hcode, ih h.2]

namespace Tracking

/-- The directories that are recorded for an entry, by code. -/
def rows (tracking : Tracking) (total : Usage) : List (Nat × Usage) :=
  match tracking.directories with
  | .none => []
  | .detailed => detailRows tracking.detail
  | .shared shared => [(shared, total)]

theorem usageIn_eq (tracking : Tracking) (total : Usage) (code : Nat) :
    tracking.usageIn total code = (tracking.rows total).lookup code := by
  have hone : ∀ (key : Nat) (usage : Usage),
      (if key = code then some usage else none) = [(key, usage)].lookup code := by
    intro key usage
    by_cases h : code = key
    · simp [h]
    · simp [lookup_cons, beq_false_of_ne h, Ne.symm h]
  obtain ⟨directories, detail⟩ := tracking
  cases directories with
  | none => rfl
  | shared shared => exact hone shared total
  | detailed =>
    cases detail with
    | none => rfl
    | some detail =>
      cases detail with
      | Tracked tracked usage => exact hone tracked usage
      | Many map => rfl

/-- The codes of an entry are distinct, and there are so many directories. -/
structure Distinct (tracking : Tracking) (count : Nat) : Prop where
  shared_lt : ∀ code, tracking.directories = .shared code → code < count
  nodup : ((detailRows tracking.detail).map Prod.fst).Nodup
  lt : ∀ code ∈ (detailRows tracking.detail).map Prod.fst, code < count

theorem map_fst_recordIn (map : List (Nat × Usage)) (code timestamp : Nat) :
    (Tables.recordIn map code timestamp).map Prod.fst =
      if code ∈ map.map Prod.fst then map.map Prod.fst else map.map Prod.fst ++ [code] := by
  induction map with
  | nil => simp [Tables.recordIn]
  | cons row map ih =>
    obtain ⟨key, usage⟩ := row
    rw [Tables.recordIn]
    by_cases hkey : key = code
    · simp [hkey]
    · rw [if_neg hkey, map_cons, ih, map_cons]
      by_cases hmem : code ∈ map.map Prod.fst
      · rw [if_pos hmem, if_pos (mem_cons_of_mem _ hmem)]
      · rw [if_neg hmem, if_neg (not_mem_cons_of_ne_of_not_mem (Ne.symm hkey) hmem)]
        rfl

variable {tracking : Tracking} {count : Nat}

theorem Distinct.rows (h : Distinct tracking count) (total : Usage) :
    ((tracking.rows total).map Prod.fst).Nodup ∧
      ∀ code ∈ (tracking.rows total).map Prod.fst, code < count := by
  obtain ⟨directories, detail⟩ := tracking
  cases directories with
  | none => exact ⟨nodup_nil, nofun⟩
  | detailed => exact ⟨h.nodup, h.lt⟩
  | shared shared =>
    refine ⟨nodup_singleton _, fun code hcode => ?_⟩
    rw [mem_singleton.mp hcode]
    exact h.shared_lt shared rfl

theorem Distinct.recordDetail (h : Distinct tracking count) {code} (hcode : code < count)
    (timestamp : Nat) : Distinct (tracking.recordDetail code timestamp) count := by
  -- A map of distinct codes takes one more.
  have hmany : ∀ map : List (Nat × Usage), (map.map Prod.fst).Nodup →
      (∀ key ∈ map.map Prod.fst, key < count) →
      Distinct { tracking with detail := some (.Many (Tables.recordIn map code timestamp)) }
        count := by
    intro map hnodup hlt
    refine ⟨h.shared_lt, ?_, ?_⟩
    · show ((Tables.recordIn map code timestamp).map Prod.fst).Nodup
      rw [map_fst_recordIn]
      split
      · exact hnodup
      · next habsent =>
          rw [← concat_eq_append]
          exact List.Nodup.concat habsent hnodup
    · show ∀ key ∈ (Tables.recordIn map code timestamp).map Prod.fst, key < count
      rw [map_fst_recordIn]
      split
      · exact hlt
      · intro key hkey
        rcases mem_append.mp hkey with hold | hnew
        · exact hlt key hold
        · rw [mem_singleton.mp hnew]
          exact hcode
  obtain ⟨directories, detail⟩ := tracking
  cases detail with
  | none => exact h
  | some detail =>
    cases detail with
    | Many map => exact hmany map h.nodup h.lt
    | Tracked tracked usage =>
      rw [Tracking.recordDetail]
      dsimp only
      split
      · exact ⟨h.shared_lt, h.nodup, h.lt⟩
      · exact hmany [(tracked, usage)] h.nodup h.lt

/-- **A use** leaves the codes distinct. -/
theorem Distinct.use (h : Distinct tracking count) (total : Usage)
    (hcode : ∀ used, code = some used → used < count) (timestamp : Nat) :
    Distinct (tracking.use total code timestamp) count := by
  obtain ⟨directories, detail⟩ := tracking
  -- A row of its own for the shared directory.
  have hshared : ∀ current, directories = .shared current →
      Distinct { directories := .detailed, detail := some (.Tracked current total) } count := by
    intro current hdirectories
    refine ⟨by rintro _ ⟨⟩, nodup_singleton _, fun key hkey => ?_⟩
    rw [mem_singleton.mp hkey]
    exact h.shared_lt current hdirectories
  cases code with
  | none =>
    cases directories with
    | none => exact h
    | detailed => exact h
    | shared current => exact hshared current rfl
  | some used =>
    have hused := hcode used rfl
    rw [Tracking.use, record]
    dsimp only
    split
    · exact h
    cases directories with
    | none =>
      refine ⟨fun code hsame => ?_, h.nodup, h.lt⟩
      change Directories.ofCode used = .shared code at hsame
      rw [Directories.ofCode] at hsame
      split_ifs at hsame
      cases hsame
      exact hused
    | detailed => exact h.recordDetail hused timestamp
    | shared current =>
      have hrow := hshared current rfl
      exact @Distinct.recordDetail
        { directories := .detailed, detail := some (.Many [(current, total)]) } count
        ⟨by rintro _ ⟨⟩, hrow.nodup, hrow.lt⟩ used hused timestamp

end Tracking

/-! ## The directories of the tables -/

namespace Tables

/-- Directories have the codes of their positions, and the codes of an entry are
distinct. -/
structure Kept (tables : Tables) : Prop where
  spelled : ∀ code path, tables.directory_paths[code]? = some path →
    tables.directory_codes (components path) = some code
  shared_lt : ∀ entry ∈ tables.entries, ∀ code, entry.directories = .shared code →
    code < tables.directory_paths.length
  detailed : ∀ idx, Tracking.Distinct { directories := .detailed, detail := tables.directory_details idx }
    tables.directory_paths.length

variable {hash : List Char → UInt64} {occurrences : List Occurrence} {tables tables' : Tables}

theorem kept_empty : Kept empty where
  spelled := by simp [empty]
  shared_lt := by simp [empty]
  detailed := fun _ => ⟨nofun, nodup_nil, nofun⟩

theorem Kept.tracking (h : Kept tables)
    (hentry : tables.entries[idx]? = some entry) :
    (tables.tracking idx entry).Distinct tables.directory_paths.length :=
  ⟨h.shared_lt entry (mem_of_getElem? hentry), (h.detailed idx).nodup, (h.detailed idx).lt⟩

theorem Kept.entryOf (h : Kept tables)
    (hentry : tables.entryOf hash command = some (tables', idx)) : Kept tables' := by
  rcases entryOf_cases hentry with ⟨-, rfl⟩ | ⟨-, -, -, _, rfl⟩
  · exact h
  · refine ⟨h.spelled, ?_, h.detailed⟩
    intro entry hmem code hcode
    rcases mem_append.mp hmem with hold | hnew
    · exact h.shared_lt entry hold code hcode
    · rw [mem_singleton.mp hnew] at hcode
      cases hcode

theorem Kept.internDirectory (h : Kept tables)
    (hintern : tables.internDirectory cwd = some (tables', code)) : Kept tables' := by
  rcases internDirectory_cases hintern with ⟨-, rfl⟩ | ⟨hcode, -, rfl⟩
  · exact h
  · have hmore : ∀ {code : Nat}, code < tables.directory_paths.length →
        code < (tables.directory_paths ++ [cwd]).length := by
      intro code hlt
      rw [length_append]
      omega
    refine ⟨?_, fun entry hmem code hshared => hmore (h.shared_lt entry hmem code hshared),
      fun idx => ⟨nofun, (h.detailed idx).nodup, fun code hmem => hmore ((h.detailed idx).lt code hmem)⟩⟩
    intro code path hpath
    dsimp only at hpath ⊢
    rw [getElem?_append] at hpath
    split at hpath
    · have hold := h.spelled code path hpath
      rw [Function.update_of_ne, hold]
      intro hsame
      rw [hsame, hcode] at hold
      cases hold
    · next hge =>
        obtain ⟨hlt, hsame⟩ := List.getElem?_eq_some_iff.mp hpath
        rw [length_singleton] at hlt
        have hcode : code = tables.directory_paths.length := by omega
        rw [getElem_singleton] at hsame
        rw [hcode, hsame, Function.update_self]

/-- **One occurrence** keeps the directories. -/
theorem Kept.step (h : Kept tables) (hagrees : Agrees hash occurrences tables)
    {occurrence} (happly : tables.applyOccurrence hash occurrence = some tables') :
    Kept tables' := by
  obtain ⟨known, idx, interned, code, entry, between, latest_id, hknown, hintern, hentry, _,
    hbetween, hsettled⟩ := applyOccurrence_cases happly
  have hkept : Kept interned ∧ ∀ used, code = some used → used < interned.directory_paths.length := by
    cases hplace : occurrence.cwd with
    | none =>
      rw [hplace] at hintern
      cases hintern
      exact ⟨h.entryOf hknown, by rintro _ ⟨⟩⟩
    | some cwd =>
      rw [hplace] at hintern
      obtain ⟨found, hfound, rfl⟩ := internCwd_some hintern
      obtain ⟨hinterned, _, _, hcode⟩ := (hagrees.entryOf hknown).1.internDirectory hfound
      refine ⟨(h.entryOf hknown).internDirectory hfound, fun used hused => ?_⟩
      cases hused
      exact hinterned.code_lt _ _ hcode
  obtain ⟨hkept, hcode⟩ := hkept
  have huse := (hkept.tracking hentry).use entry.total hcode occurrence.timestamp.toNat
  refine ⟨?_, ?_, ?_⟩
  · rw [hsettled.paths, hbetween.paths, hsettled.codes, hbetween.codes]
    exact hkept.spelled
  · rw [hsettled.paths, hbetween.paths]
    intro changed hchanged shared hshared
    obtain ⟨i, hi⟩ := mem_iff_getElem?.mp hchanged
    rw [hsettled.entries, hbetween.entries, getElem?_modify, getElem?_modify] at hi
    cases hold : interned.entries[i]? with
    | none =>
      rw [hold] at hi
      cases hi
    | some old =>
      rw [hold] at hi
      by_cases hidx : idx = i
      · subst hidx
        simp only [if_true, Option.map_eq_map, map_some, some.injEq] at hi
        rw [← hi] at hshared
        exact huse.shared_lt shared hshared
      · simp only [hidx, if_false, Option.map_eq_map, map_some, some.injEq] at hi
        rw [← hi] at hshared
        exact hkept.shared_lt old (mem_of_getElem? hold) shared hshared
  · intro i
    rw [hsettled.details, hbetween.details, hsettled.paths, hbetween.paths, Function.update_apply]
    split
    · exact ⟨by rintro _ ⟨⟩, huse.nodup, huse.lt⟩
    · exact hkept.detailed i

/-- **Any occurrences** keep the directories. -/
theorem kept_ofOccurrences (h : ofOccurrences hash occurrences = some tables) : Kept tables := by
  have hrun := run_induction (P := fun occurrences tables =>
      Agrees hash occurrences tables ∧ Kept tables)
    (fun _ _ _ _ hbefore happly => ⟨hbefore.1.step happly, hbefore.2.step hbefore.1 happly⟩)
    occurrences ⟨agrees_empty, kept_empty⟩ h
  exact hrun.2

end Tables

/-! ## Scanning -/

namespace Tables

variable (tables : Tables)

/-- The usage that is recorded for an entry in a directory. -/
def recordedUsage (idx : Nat) (entry : Entry) (directory : List Component) : Option Usage :=
  (tables.directory_codes directory).bind ((tables.tracking idx entry).usageIn entry.total)

/-- `cwd` starts with the bytes of a directory, as it was first recorded. -/
def Spelled (cwd : Path) (directory : List Component) : Prop :=
  ∃ code path, tables.directory_codes directory = some code ∧
    tables.directory_paths[code]? = some path ∧ path <+: cwd

/-- What a scan comes across: a directory that is spelled so, its distance and usage. -/
def Sees (idx : Nat) (entry : Entry) (cwd : Path) (directory : List Component) (distance : Nat)
    (usage : Usage) : Prop :=
  tables.Spelled cwd directory ∧ tables.recordedUsage idx entry directory = some usage ∧
    ∃ rest, directory ++ rest = components cwd ∧ rest.length = distance

theorem ancestorDistance_eq_some :
    ancestorDistance directory cwd = some distance ↔ directory <+: cwd ∧
      ∃ rest, components directory ++ rest = components cwd ∧
        rest.length = distance := by
  rw [ancestorDistance]
  by_cases hspelled : directory <+: cwd
  · rw [if_pos (List.isPrefixOf_iff_prefix.mpr hspelled), map_eq_some_iff]
    simp only [hspelled, true_and, strip_eq_some]
  · rw [if_neg fun h => hspelled (List.isPrefixOf_iff_prefix.mp h)]
    simp [hspelled]

theorem Kept.sees_iff {tables : Tables} {hash : List Char → UInt64}
    {occurrences : List Occurrence} (h : Kept tables) (hagrees : Agrees hash occurrences tables)
    {idx : Nat} (hentry : tables.entries[idx]? = some entry) :
    (∃ code, (code, usage) ∈ (tables.tracking idx entry).rows entry.total ∧
      tables.codeDistance code cwd = some distance) ↔
    ∃ directory, tables.Sees idx entry cwd directory distance usage := by
  obtain ⟨hnodup, hlt⟩ := (h.tracking hentry).rows entry.total
  constructor
  · rintro ⟨code, hrow, hdistance⟩
    rw [codeDistance, bind_eq_some_iff] at hdistance
    obtain ⟨path, hpath, hdistance⟩ := hdistance
    obtain ⟨hspelled, hrest⟩ := ancestorDistance_eq_some.mp hdistance
    have hcode := h.spelled code path hpath
    refine ⟨UnixPath.components path, ⟨code, path, hcode, hpath, hspelled⟩, ?_, hrest⟩
    rw [recordedUsage, hcode, bind_some, Tracking.usageIn_eq]
    exact (lookup_eq_some hnodup).mpr hrow
  · rintro ⟨directory, ⟨code, path, hcode, hpath, hspelled⟩, husage, hrest⟩
    rw [recordedUsage, hcode, bind_some, Tracking.usageIn_eq] at husage
    refine ⟨code, (lookup_eq_some hnodup).mp husage, ?_⟩
    have hsame : components path = directory :=
      hagrees.code_inj _ _ _ (h.spelled code path hpath) hcode
    rw [codeDistance, hpath, bind_some, ancestorDistance_eq_some, hsame]
    exact ⟨hspelled, hrest⟩

/-- The rows of a scan that have a distance. -/
def candidates (cwd : Path) (map : List (Nat × Usage)) : List (Nat × Usage) :=
  map.filterMap fun row => (tables.codeDistance row.1 cwd).map (·, row.2)

/-- One more candidate is kept when it is closer. -/
def keepCloser (nearest : Option (Nat × Usage)) (candidate : Nat × Usage) :
    Option (Nat × Usage) :=
  if nearest.all fun closest => candidate.1 < closest.1 then some candidate else nearest

theorem nearestOf_eq (cwd : Path) (nearest : Option (Nat × Usage)) (map : List (Nat × Usage)) :
    tables.nearestOf cwd nearest map = (tables.candidates cwd map).foldl keepCloser nearest := by
  induction map generalizing nearest with
  | nil => rfl
  | cons row map ih =>
    obtain ⟨code, usage⟩ := row
    rw [nearestOf, candidates]
    cases hdistance : tables.codeDistance code cwd with
    | none =>
      rw [filterMap_cons_none (by rw [hdistance]; rfl)]
      exact ih nearest
    | some distance =>
      rw [filterMap_cons_some (by rw [hdistance]; rfl), foldl_cons, keepCloser]
      dsimp only
      split
      · exact ih _
      · exact ih _

/-- What is kept is one of the candidates, and none is closer. -/
theorem foldl_keepCloser (closest : Nat × Usage) (rest : List (Nat × Usage)) :
    ∃ found ∈ closest :: rest, rest.foldl keepCloser (some closest) = some found ∧
      ∀ other ∈ closest :: rest, found.1 ≤ other.1 := by
  induction rest generalizing closest with
  | nil => simp
  | cons candidate rest ih =>
    rw [foldl_cons, keepCloser, all_some]
    by_cases hcloser : candidate.1 < closest.1
    · rw [if_pos (decide_eq_true hcloser)]
      obtain ⟨found, hfound, hscan, hleast⟩ := ih candidate
      refine ⟨found, mem_cons_of_mem _ hfound, hscan, fun other hother => ?_⟩
      rcases mem_cons.mp hother with rfl | hmem
      · exact (hleast candidate mem_cons_self).trans hcloser.le
      · exact hleast other hmem
    · rw [if_neg (by simpa using hcloser)]
      obtain ⟨found, hfound, hscan, hleast⟩ := ih closest
      refine ⟨found, ?_, hscan, fun other hother => ?_⟩
      · rcases mem_cons.mp hfound with rfl | hmem
        · exact mem_cons_self
        · exact mem_cons_of_mem _ (mem_cons_of_mem _ hmem)
      · rcases mem_cons.mp hother with rfl | hmem
        · exact hleast _ mem_cons_self
        rcases mem_cons.mp hmem with rfl | hmem
        · exact (hleast _ mem_cons_self).trans (not_lt.mp hcloser)
        · exact hleast other (mem_cons_of_mem _ hmem)

/-- The directory a scan of an entry ends with. -/
def scan (idx : Nat) (entry : Entry) (cwd : Path) : Option (Nat × Usage) :=
  tables.nearestOf cwd none ((tables.tracking idx entry).rows entry.total)

section Scan

variable {tables : Tables} {hash : List Char → UInt64} {occurrences : List Occurrence}
  (h : Kept tables) (hagrees : Agrees hash occurrences tables) {idx : Nat} {entry : Entry}
  (hentry : tables.entries[idx]? = some entry) (cwd : Path)
include h hagrees hentry

theorem mem_candidates {distance usage} :
    (distance, usage) ∈ tables.candidates cwd ((tables.tracking idx entry).rows entry.total) ↔
      ∃ directory, tables.Sees idx entry cwd directory distance usage := by
  rw [← h.sees_iff hagrees hentry, candidates, mem_filterMap]
  constructor
  · rintro ⟨⟨code, usage'⟩, hrow, hpair⟩
    obtain ⟨distance', hdistance, hsame⟩ := map_eq_some_iff.mp hpair
    cases hsame
    exact ⟨code, hrow, hdistance⟩
  · rintro ⟨code, hrow, hdistance⟩
    exact ⟨(code, usage), hrow, by rw [hdistance]; rfl⟩

/-- **A scan** ends with the closest directory it sees. -/
theorem scan_spec :
    match tables.scan idx entry cwd with
    | none => ∀ directory distance usage, ¬ tables.Sees idx entry cwd directory distance usage
    | some (distance, usage) =>
      (∃ directory, tables.Sees idx entry cwd directory distance usage) ∧
      ∀ other closer usage', tables.Sees idx entry cwd other closer usage' →
        distance ≤ closer := by
  have hmem := @mem_candidates _ _ _ h hagrees _ _ hentry cwd
  rw [scan, nearestOf_eq]
  cases hcandidates : tables.candidates cwd ((tables.tracking idx entry).rows entry.total) with
  | nil =>
    rw [hcandidates] at hmem
    intro directory distance usage hsees
    cases hmem.mpr ⟨directory, hsees⟩
  | cons closest rest =>
    obtain ⟨⟨distance, usage⟩, hfound, hscan, hleast⟩ := foldl_keepCloser closest rest
    have hstart : keepCloser none closest = some closest := rfl
    rw [hcandidates] at hmem
    rw [foldl_cons, hstart, hscan]
    exact ⟨hmem.mp hfound, fun other closer usage' hsees =>
      hleast _ (hmem.mpr ⟨other, hsees⟩)⟩

end Scan

end Tables

/-! ## Scanning or walking -/

namespace Tables

variable (tables : Tables)

/-- The directories of an entry are scanned, not looked up above `cwd`. -/
def Scans (idx : Nat) (entry : Entry) (cwd_depth : Nat) : Prop :=
  ∀ map, entry.directories = .detailed → tables.directory_details idx = some (.Many map) →
    map.length ≤ cwd_depth

/-- What a scan of the directories has to find can be found by its spelling: the
nearest directory is one that `cwd` starts with, and where there is none, the
empty path is not recorded. -/
def SpelledNearest (idx : Nat) (entry : Entry) (cwd : Path) : Prop :=
  let recorded := tables.recordedUsage idx entry
  (∀ directory distance, Below cwd directory distance → (recorded directory).isSome →
    NoneCloser recorded cwd distance → tables.Spelled cwd directory) ∧
  ((∀ directory distance, Below cwd directory distance → recorded directory = none) →
    recorded [] = none)

theorem nearestOf_singleton (cwd : Path) (code : Nat) (usage : Usage) :
    tables.nearestOf cwd none [(code, usage)] =
      (tables.codeDistance code cwd).map (·, usage) := by
  rw [nearestOf]
  cases tables.codeDistance code cwd with
  | none => rfl
  | some distance => rfl

theorem contextUsage_eq_scan
    (h : tables.Scans idx entry cwd_depth) (cwd : Path) :
    tables.contextUsage idx entry (some cwd) cwd_depth =
      inContext entry (tables.scan idx entry cwd) := by
  rw [contextUsage, scan, Tracking.rows, tracking]
  dsimp only
  cases hdirectories : entry.directories with
  | none => rfl
  | shared code =>
    dsimp only
    rw [nearestOf_singleton]
  | detailed =>
    dsimp only
    cases hdetail : tables.directory_details idx with
    | none => rfl
    | some detail =>
      cases detail with
      | Tracked code usage =>
        dsimp only [detailRows]
        rw [nearestOf_singleton]
      | Many map =>
        dsimp only [detailRows]
        rw [if_pos (h map hdirectories hdetail)]

theorem contextUsage_eq_walkUp
    (h : ¬ tables.Scans idx entry cwd_depth) (cwd : Path) :
    tables.contextUsage idx entry (some cwd) cwd_depth =
      inContext entry (walkUp (tables.recordedUsage idx entry) 0 (ancestors cwd)) := by
  simp only [Scans, not_forall] at h
  obtain ⟨map, hdirectories, hdetail, hmany⟩ := h
  have hrecorded : tables.recordedUsage idx entry =
      fun directory => (tables.directory_codes directory).bind (map.lookup ·) := by
    funext directory
    simp only [recordedUsage, tracking, hdirectories, hdetail]
    rfl
  rw [contextUsage, hrecorded, ← nearestAncestor_eq]
  simp only [hdirectories, hdetail, if_neg hmany]

variable {tables} {hash : List Char → UInt64} {occurrences : List Occurrence}

/-- A result shows how far the nearest directory is. -/
theorem inContext_inj
    (h : ∀ found, nearest = some found → found.1 < U64_MAX)
    (h' : ∀ found, nearest' = some found → found.1 < U64_MAX)
    (hsame : inContext entry nearest = inContext entry nearest') :
    nearest.map Prod.fst = nearest'.map Prod.fst := by
  have hfst := congrArg Prod.fst hsame
  cases nearest with
  | none =>
    cases nearest' with
    | none => rfl
    | some found =>
      have hlt := h' found rfl
      change 0 = U64_MAX - found.1 at hfst
      omega
  | some found =>
    have hlt := h found rfl
    cases nearest' with
    | none =>
      change U64_MAX - found.1 = 0 at hfst
      omega
    | some other =>
      have hlt' := h' other rfl
      change U64_MAX - found.1 = U64_MAX - other.1 at hfst
      rw [map_some, map_some, some.injEq]
      omega

theorem Sees.below (h : tables.Sees idx entry cwd directory distance usage)
    (hne : directory ≠ []) : Below cwd directory distance :=
  ⟨hne, h.2.2⟩

/-- **A scan ends with the nearest directory** when that one can be found by its
spelling, and else does not say how far it is. -/
theorem scan_iff (h : Kept tables) (hagrees : Agrees hash occurrences tables) (hentry : tables.entries[idx]? = some entry)
    (hnearest : IsNearest (tables.recordedUsage idx entry) cwd nearest) :
    (tables.SpelledNearest idx entry cwd → tables.scan idx entry cwd = nearest) ∧
      ((tables.scan idx entry cwd).map Prod.fst = nearest.map Prod.fst →
        tables.SpelledNearest idx entry cwd) := by
  have hspec := scan_spec h hagrees hentry cwd
  constructor
  · intro hspelled
    cases nearest with
    | none =>
      cases hscan : tables.scan idx entry cwd with
      | none => rfl
      | some found =>
        rw [hscan] at hspec
        obtain ⟨other, hsees⟩ := hspec.1
        have hother : tables.recordedUsage idx entry other = none := by
          by_cases hnil : other = []
          · rw [hnil]
            exact hspelled.2 hnearest
          · exact hnearest other _ (hsees.below hnil)
        have hsome := hsees.2.1
        rw [hother] at hsome
        cases hsome
    | some closest =>
      obtain ⟨distance, usage⟩ := closest
      obtain ⟨hcloser, directory, hbelow, husage⟩ := hnearest
      have hsees : tables.Sees idx entry cwd directory distance usage :=
        ⟨hspelled.1 directory distance hbelow (by rw [husage]; rfl) hcloser, husage, hbelow.2⟩
      cases hscan : tables.scan idx entry cwd with
      | none =>
        rw [hscan] at hspec
        exact absurd hsees (hspec directory distance usage)
      | some found =>
        rw [hscan] at hspec
        obtain ⟨⟨other, hother⟩, hleast⟩ := hspec
        have hle := hleast directory distance usage hsees
        -- The empty path is farther away than any directory above `cwd`.
        have hne : other ≠ [] := by
          rintro rfl
          obtain ⟨rest, hrest, hlength⟩ := hother.2.2
          have hlt := hbelow.lt
          rw [nil_append] at hrest
          rw [← hrest] at hlt
          omega
        have hsame : found.1 = distance := by
          by_contra hdifferent
          have hsome := hother.2.1
          rw [hcloser other found.1 (hother.below hne) (by omega)] at hsome
          cases hsome
        have hdirectory := (hsame ▸ hother.below hne : Below cwd other distance).unique hbelow
        have hfound := hother.2.1
        rw [hdirectory, husage, some.injEq] at hfound
        rw [some.injEq]
        exact Prod.ext hsame hfound.symm
  · intro hsame
    constructor
    · intro directory distance hbelow hsome hcloser
      obtain ⟨usage, husage⟩ := isSome_iff_exists.mp hsome
      have hone : IsNearest (tables.recordedUsage idx entry) cwd (some (distance, usage)) :=
        ⟨hcloser, directory, hbelow, husage⟩
      rw [hnearest.unique hone, map_some, map_eq_some_iff] at hsame
      obtain ⟨found, hscan, hdistance⟩ := hsame
      rw [hscan] at hspec
      obtain ⟨⟨other, hsees⟩, _⟩ := hspec
      obtain ⟨rest, hrest, hlength⟩ := hbelow.2
      obtain ⟨more, hmore, hlength'⟩ := hsees.2.2
      rw [eq_of_append (hrest.trans hmore.symm) (by omega)]
      exact hsees.1
    · intro hnone
      rw [@IsNearest.unique _ _ nearest none hnearest hnone, map_none, map_eq_none_iff] at hsame
      rw [hsame] at hspec
      by_contra hsome
      obtain ⟨usage, husage⟩ := ne_none_iff_exists'.mp hsome
      obtain ⟨code, hcode, _⟩ := bind_eq_some_iff.mp husage
      have hpath := getElem?_eq_getElem (hagrees.code_lt _ _ hcode)
      have hempty := components_eq_nil
        (hagrees.code_inj _ _ _ (h.spelled code _ hpath) hcode)
      exact hspec [] _ usage
        ⟨⟨code, _, hcode, hpath, hempty ▸ List.nil_prefix⟩, husage, _, rfl, rfl⟩

/-- Distances are small. -/
theorem nearest_lt {recorded cwd}
    {nearest} (h : IsNearest recorded cwd nearest)
    (hlength : cwd.length < 2 ^ 63) (found : Nat × Usage) (hfound : nearest = some found) :
    found.1 < U64_MAX := by
  subst hfound
  obtain ⟨directory, hbelow, _⟩ := h.2
  have hlt := hbelow.lt
  have hcomponents := length_components_le cwd
  rw [U64_MAX]
  omega

theorem scan_lt (h : ofOccurrences hash occurrences = some tables)
    (hentry : tables.entries[idx]? = some entry) (hlength : cwd.length < 2 ^ 63)
    (found : Nat × Usage) (hfound : tables.scan idx entry cwd = some found) :
    found.1 < U64_MAX := by
  have hspec := scan_spec (kept_ofOccurrences h) (agrees_ofOccurrences h) hentry cwd
  rw [hfound] at hspec
  obtain ⟨directory, _, _, rest, hrest, hdistance⟩ := hspec.1
  have hcomponents := length_components_le cwd
  rw [← hrest, length_append] at hcomponents
  rw [U64_MAX]
  omega

/-- **The nearest recorded directory** is found by a walk, and by a scan when that
one is the start of `cwd` as it was spelled. -/
theorem contextUsage_iff (h : ofOccurrences hash occurrences = some tables) {idx : Nat}
    {entry : Entry} (hentry : tables.entries[idx]? = some entry) {cwd : Path}
    (hroot : IsAbsolute cwd) (hlength : cwd.length < 2 ^ 63) (cwd_depth : Nat) :
    (∃ nearest, IsNearest (tables.recordedUsage idx entry) cwd nearest ∧
      tables.contextUsage idx entry (some cwd) cwd_depth = inContext entry nearest) ↔
    (tables.Scans idx entry cwd_depth → tables.SpelledNearest idx entry cwd) := by
  have hwalk := walkUp_isNearest (tables.recordedUsage idx entry) hroot
  by_cases hscans : tables.Scans idx entry cwd_depth
  · obtain ⟨hfound, hspelled⟩ := scan_iff (kept_ofOccurrences h) (agrees_ofOccurrences h) hentry
      hwalk
    rw [tables.contextUsage_eq_scan hscans]
    constructor
    · rintro ⟨nearest, hnearest, hsame⟩ _
      rw [hnearest.unique hwalk] at hsame
      exact hspelled (inContext_inj (scan_lt h hentry hlength) (nearest_lt hwalk hlength) hsame)
    · exact fun hspelled => ⟨_, hwalk, by rw [hfound (hspelled hscans)]⟩
  · constructor
    · exact fun _ hscan => absurd hscan hscans
    · exact fun _ => ⟨_, hwalk, tables.contextUsage_eq_walkUp hscans cwd⟩

end Tables

/-- A command that ran in `/` and in `/b`. -/
def nestedDirectories : List Occurrence :=
  [{ id := 1, command := ['a'], timestamp := 5, session_id := 0, cwd := some [0x2f] },
    { id := 2, command := ['a'], timestamp := 6, session_id := 0, cwd := some [0x2f, 0x62] }]

/-- Seen from `/b/c`, they are scanned. -/
theorem contextUsage_iff_nested : ∃ tables entry,
    Tables.ofOccurrences (fun _ => 0) nestedDirectories = some tables ∧
      tables.entries[0]? = some entry ∧
      ((∃ nearest, IsNearest (tables.recordedUsage 0 entry) [0x2f, 0x62, 0x2f, 0x63] nearest ∧
        tables.contextUsage 0 entry (some [0x2f, 0x62, 0x2f, 0x63]) 3 =
          Tables.inContext entry nearest) ↔
      (tables.Scans 0 entry 3 → tables.SpelledNearest 0 entry [0x2f, 0x62, 0x2f, 0x63])) := by
  have hsome : ((Tables.ofOccurrences (fun _ => 0) nestedDirectories).bind fun tables =>
      tables.entries[0]?).isSome := by
    decide
  obtain ⟨entry, hentry⟩ := isSome_iff_exists.mp hsome
  obtain ⟨tables, htables, hentry⟩ := bind_eq_some_iff.mp hentry
  exact ⟨tables, entry, htables, hentry,
    Tables.contextUsage_iff htables hentry (by decide) (by decide) 3⟩

/-- A command that ran in `/a/`, spelled with a separator at its end. -/
def trailingSeparator : List Occurrence :=
  [{ id := 1, command := ['a'], timestamp := 5, session_id := 0, cwd := some [0x2f, 0x61, 0x2f] }]

/-- Seen from `/a`, the directory itself is missed. -/
theorem trailingSeparator_is_missed : ∃ tables entry,
    Tables.ofOccurrences (fun _ => 0) trailingSeparator = some tables ∧
      tables.entries[0]? = some entry ∧ UnixPath.IsNormal [0x2f, 0x61] ∧
      ¬ ∃ nearest, IsNearest (tables.recordedUsage 0 entry) [0x2f, 0x61] nearest ∧
        tables.contextUsage 0 entry (some [0x2f, 0x61])
          (ancestors [0x2f, 0x61]).length = Tables.inContext entry nearest := by
  have hrun : ((Tables.ofOccurrences (fun _ => 0) trailingSeparator).bind fun tables =>
      (tables.entries[0]?).bind fun entry =>
        (tables.recordedUsage 0 entry (components [0x2f, 0x61])).map fun usage =>
          (usage, (tables.contextUsage 0 entry (some [0x2f, 0x61])
            (ancestors [0x2f, 0x61]).length).1)) =
      some ({ count := 1, timestamp := 5 }, 0) := by
    decide
  obtain ⟨tables, htables, hrun⟩ := bind_eq_some_iff.mp hrun
  obtain ⟨entry, hentry, hrun⟩ := bind_eq_some_iff.mp hrun
  obtain ⟨usage, husage, hpair⟩ := map_eq_some_iff.mp hrun
  refine ⟨tables, entry, htables, hentry, Or.inr ⟨rfl, [.normal [0x61]], rfl, rfl⟩, ?_⟩
  rintro ⟨nearest, hnearest, hsame⟩
  have hself : IsNearest (tables.recordedUsage 0 entry) [0x2f, 0x61] (some (0, usage)) :=
    ⟨fun _ _ _ hlt => absurd hlt (Nat.not_lt_zero _), components [0x2f, 0x61],
      ⟨nofun, [], append_nil _, rfl⟩, husage⟩
  rw [hnearest.unique hself] at hsame
  have hfst := (congrArg Prod.snd hpair).symm.trans (congrArg Prod.fst hsame)
  cases hfst

end Ish.History
