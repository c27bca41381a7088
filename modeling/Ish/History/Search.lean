import Ish.History.Tables
import Mathlib.Data.List.InsertIdx

/-!
# Search — ranking the entries that match a query

The model of `context_usage`, `rank_key` and `search_limited` in
`src/history.rs`, at the clock `now`. A candidate that is no entry, and a
selected candidate that does not match, panic: `none`.
-/

namespace Ish.History

open Ish.Lib List Option
open Ish.Lib.Ascii (isAscii)
open Ish.Lib.UnixPath (Path)

/-! ## Ranking keys -/

/-- How many components `cwd` is below `directory`. -/
def ancestorDistance (directory cwd : Path) : Option Nat :=
  if directory.isPrefixOf cwd then (UnixPath.strip cwd directory).map List.length else none

def usageBonus (usage : Usage) (now : Nat) : Nat :=
  let frequency := min (Nat.log2 (max usage.count 1)) 10 * 2
  let hours := (now - usage.timestamp) / 3600000
  let recency :=
    if hours ≤ 1 then 24 else if hours ≤ 23 then 20 else if hours ≤ 167 then 12
    else if hours ≤ 719 then 4 else 0
  frequency + recency

namespace Tables

variable (tables : Tables)

/-- The distance from a directory, by its code, to `cwd`. -/
def codeDistance (code : Nat) (cwd : Path) : Option Nat :=
  (tables.directory_paths[code]?).bind (ancestorDistance · cwd)

/-- The loop over the directories of a small map. -/
def nearestOf (cwd : Path) : Option (Nat × Usage) → List (Nat × Usage) → Option (Nat × Usage)
  | nearest, [] => nearest
  | nearest, (code, usage) :: map =>
    match tables.codeDistance code cwd with
    | none => nearestOf cwd nearest map
    | some distance =>
      if nearest.all fun closest => distance < closest.1 then
        nearestOf cwd (some (distance, usage)) map
      else nearestOf cwd nearest map

/-- The loop over the ancestors of `cwd`, for a large map. -/
def nearestAncestor (map : List (Nat × Usage)) :
    Nat → List (List UnixPath.Component) → Option (Nat × Usage)
  | _, [] => none
  | distance, directory :: ancestors =>
    match (tables.directory_codes directory).bind (map.lookup ·) with
    | some usage => some (distance, usage)
    | none => nearestAncestor map (distance + 1) ancestors

/-- `(usize::MAX - distance, usage)` where there is a directory, else the totals. -/
def inContext (entry : Entry) (nearest : Option (Nat × Usage)) : Nat × Usage :=
  match nearest with
  | some (distance, usage) => (U64_MAX - distance, usage)
  | none => (0, entry.total)

def contextUsage (idx : Nat) (entry : Entry) (cwd : Option Path) (cwd_depth : Nat) :
    Nat × Usage :=
  match cwd with
  | none => (0, entry.total)
  | some cwd =>
    inContext entry <|
      match entry.directories with
      | .none => none
      | .shared code => (tables.codeDistance code cwd).map (·, entry.total)
      | .detailed =>
        match tables.directory_details idx with
        | some (.Tracked code tracked) => (tables.codeDistance code cwd).map (·, tracked)
        | some (.Many map) =>
          if map.length ≤ cwd_depth then tables.nearestOf cwd none map
          else tables.nearestAncestor map 0 (UnixPath.ancestors cwd)
        | none => none

/-- Text tier or last use, directory proximity, usage bonus, usage time, and the
latest occurrence, each before the next. -/
abbrev RankKey := Nat ×ₗ Nat ×ₗ Nat ×ₗ Nat ×ₗ Nat

def rankKey (idx : Nat) (entry : Entry) (primary : Nat) (empty : Bool) (cwd : Option Path)
    (cwd_depth now : Nat) : RankKey :=
  let (context, usage) := tables.contextUsage idx entry cwd cwd_depth
  let bonus := if empty then 0 else usageBonus usage now
  toLex (primary, toLex (context, toLex (bonus, toLex (usage.timestamp, entry.latest_id))))

/-! ## The search -/

/-- All global candidates, the latest first. -/
def searchEntryIndices : List Nat := tables.latest_occurrences.reverse.map (·.2)

end Tables

/-- What a search is for, and where and when. -/
structure Request where
  query : List Char
  limit : Nat
  cwd : Option Path
  now : Nat

namespace Request

variable (request : Request)

def empty : Bool := request.query.isEmpty

/-- The query is matched as bytes against ASCII entries. -/
def is_ascii : Bool := isAscii request.query && (Utf8.encode request.query).length ≤ 32

def ascii : List UInt8 := ((Utf8.encode request.query).take 32).map Ascii.lowercase

def query_letters : UInt32 := if request.is_ascii then letterMask request.ascii else 0

def cwd_depth : Nat :=
  match request.cwd with
  | none => 0
  | some cwd => (UnixPath.ancestors cwd).length

end Request

/-- The state of the loop of `search_limited`: `chars` is the query lowered as
characters, once it was needed. -/
structure SearchState where
  chars : Option (List Char)
  matched : List Nat
  ranking : List (Tables.RankKey × Nat)

section Search

variable (lower : Lowercase) (tables : Tables) (request : Request)

/-- `rank_match_ascii` for an ASCII entry and query, else `rank_match`, which
lowers the query when that was not done yet. -/
def rankText (chars : Option (List Char)) (text : List Char) :
    Option MatchRank × Option (List Char) :=
  if request.empty then (some .Empty, chars)
  else if request.is_ascii && isAscii text then (rankMatchAscii request.ascii text, chars)
  else
    let lowered := chars.getD (lowercaseQuery lower request.query)
    (rankMatch lower lowered text, some lowered)

/-- `rankText`, behind the test of the letters. -/
def rankEntry (chars : Option (List Char)) (entry : Entry) :
    Option MatchRank × Option (List Char) :=
  if !request.empty && request.is_ascii && isAscii entry.text &&
      entry.letters &&& request.query_letters != request.query_letters then (none, chars)
  else rankText lower request chars entry.text

/-- A matching entry takes its place in the ranking. -/
def insertRanked (ranking : List (Tables.RankKey × Nat)) (idx : Nat) (entry : Entry)
    (rank : MatchRank) : List (Tables.RankKey × Nat) :=
  let primary := if request.empty then entry.total.timestamp else rank.score
  let full := ranking.length == request.limit
  if full && (ranking.getLast?).any fun worst => primary < (ofLex worst.1).1 then ranking
  else
    let key := tables.rankKey idx entry primary request.empty request.cwd request.cwd_depth
      request.now
    if full && (ranking.getLast?).any fun worst => key ≤ worst.1 then ranking
    else
      let position := (ranking.takeWhile fun existing => key < existing.1).length
      (if full then ranking.dropLast else ranking).insertIdx position (key, idx)

def searchStep (state : SearchState) (idx : Nat) : Option SearchState := do
  let entry ← tables.entries[idx]?
  let (rank, chars) := rankEntry lower request state.chars entry
  match rank with
  | none => return { state with chars }
  | some rank =>
    let matched := state.matched ++ [idx]
    if request.limit = 0 then return { state with chars, matched }
    return { chars, matched, ranking := insertRanked tables request state.ranking idx entry rank }

/-- The matched positions of the results. -/
def materialize : Option (List Char) → List Nat → Option (List FuzzyMatch)
  | _, [] => some []
  | chars, idx :: rest => do
    let entry ← tables.entries[idx]?
    let (rank, chars) := rankText lower request chars entry.text
    let result ← materializeMatch lower (← rank) idx entry.text request.ascii chars
    return result :: (← materialize chars rest)

def initialState : SearchState :=
  { chars := if request.is_ascii then none else some (lowercaseQuery lower request.query)
    matched := []
    ranking := [] }

/-- `search_limited`: the candidates that match, and the best of them. -/
def searchLimited (candidates : List Nat) : Option (List Nat × List FuzzyMatch) := do
  let state ← candidates.foldlM (searchStep lower tables request) (initialState lower request)
  if request.limit = 0 then return (state.matched, [])
  let results ← materialize lower tables request state.chars (state.ranking.map (·.2))
  return (state.matched, results)

end Search

/-! ## What a search finds -/

/-- An entry matches when its lowered characters contain those of the query, in
order. -/
def Matches (lower : Lowercase) (query text : List Char) : Prop :=
  (lowercaseQuery lower query).Sublist (text.map lower.first)

instance (lower : Lowercase) (query text : List Char) : Decidable (Matches lower query text) :=
  inferInstanceAs (Decidable (List.Sublist _ _))

/-- **What matches a longer query matches the shorter one.** -/
theorem Matches.of_append {lower query suffix text}
    (h : Matches lower (query ++ suffix) text) : Matches lower query text := by
  rw [Matches, lowercaseQuery, map_append] at h
  exact (sublist_append_left _ _).trans h

section Search

variable (lower : Lowercase) (tables : Tables) (request : Request)

/-- The lowered characters are those of the query, when they are there. -/
def Lowered (chars : Option (List Char)) : Prop :=
  chars = none ∨ chars = some (lowercaseQuery lower request.query)

variable {lower request} {chars : Option (List Char)}

theorem Lowered.getD (h : Lowered lower request chars) :
    chars.getD (lowercaseQuery lower request.query) = lowercaseQuery lower request.query := by
  rcases h with rfl | rfl <;> rfl

theorem lowered_initialState : Lowered lower request (initialState lower request).chars := by
  rw [initialState]
  cases request.is_ascii with
  | true => exact Or.inl rfl
  | false => exact Or.inr rfl

theorem isAscii_query (h : request.is_ascii = true) : isAscii request.query = true := by
  rw [Request.is_ascii, Bool.and_eq_true] at h
  exact h.1

theorem ascii_eq (h : request.is_ascii = true) :
    request.ascii = (request.query.map Ascii.byte).map Ascii.lowercase := by
  rw [Request.is_ascii, Bool.and_eq_true, decide_eq_true_iff] at h
  rw [Request.ascii, take_of_length_le h.2, Ascii.encode_of_isAscii h.1]

theorem query_eq_nil (h : request.empty = true) : request.query = [] :=
  List.isEmpty_iff.mp h

theorem query_ne_nil (h : ¬ request.empty = true) : request.query ≠ [] := by
  intro hnil
  exact h (by rw [Request.empty, hnil]; rfl)

/-- **Ranking decides `Matches`**, whichever matcher runs. -/
theorem rankText_isSome (h : Lowered lower request chars) (text : List Char) :
    (rankText lower request chars text).1.isSome ↔ Matches lower request.query text := by
  rw [rankText]
  by_cases hempty : request.empty = true
  · rw [if_pos hempty, Matches, query_eq_nil hempty]
    simp [lowercaseQuery]
  rw [if_neg hempty]
  by_cases hascii : (request.is_ascii && isAscii text) = true
  · rw [if_pos hascii]
    rw [Bool.and_eq_true] at hascii
    show (rankMatchAscii request.ascii text).isSome ↔ _
    rw [ascii_eq hascii.1]
    exact rankMatchAscii_isSome lower (isAscii_query hascii.1) hascii.2
  · rw [if_neg hascii, h.getD]
    exact rankMatch_isSome lower

theorem rankText_fst (h : Lowered lower request chars) (text : List Char) :
    (rankText lower request chars text).1 = (rankText lower request none text).1 := by
  simp only [rankText, h.getD, getD_none]
  split
  · rfl
  · split <;> rfl

theorem lowered_rankText (h : Lowered lower request chars)
    (text : List Char) : Lowered lower request (rankText lower request chars text).2 := by
  simp only [rankText, h.getD]
  split
  · exact h
  · split
    · exact h
    · exact Or.inr rfl

/-- The test of the letters only drops what does not match. -/
theorem rankEntry_eq (h : Lowered lower request chars) (entry : Entry) :
    (rankEntry lower request chars entry).1 = (rankText lower request none entry.text).1 ∧
      Lowered lower request (rankEntry lower request chars entry).2 := by
  rw [rankEntry]
  split
  · rename_i hletters
    simp only [Bool.and_eq_true, Bool.not_eq_true', bne_iff_ne] at hletters
    obtain ⟨⟨⟨hempty, hascii⟩, htext⟩, hletters⟩ := hletters
    refine ⟨?_, h⟩
    have hnone : ¬ (rankText lower request none entry.text).1.isSome := by
      rw [rankText_isSome (Or.inl rfl)]
      intro hmatch
      obtain ⟨hlowered, hbytes⟩ := isAscii_lowercaseQuery lower (isAscii_query hascii)
      rw [Matches, ← sublist_bytes_iff lower hlowered htext, hbytes, ← ascii_eq hascii] at hmatch
      refine hletters ?_
      rw [entry.letters_eq, Request.query_letters, if_pos hascii]
      exact letters_of_sublist hmatch
    exact (not_isSome_iff_eq_none.mp hnone).symm
  · exact ⟨rankText_fst h _, lowered_rankText h _⟩

variable {tables}

variable (lower tables request) in
/-- The candidates that match. -/
def matching (query : List Char) (candidates : List Nat) : List Nat :=
  candidates.filter fun idx => (tables.entries[idx]?).any fun entry =>
    decide (Matches lower query entry.text)

variable (lower tables request) in
/-- The ranking after one candidate that matches. -/
def rankNext (ranking : List (Tables.RankKey × Nat)) (idx : Nat) :
    List (Tables.RankKey × Nat) :=
  match tables.entries[idx]? with
  | none => ranking
  | some entry =>
    match (rankText lower request none entry.text).1 with
    | none => ranking
    | some rank =>
      if request.limit = 0 then ranking else insertRanked tables request ranking idx entry rank

/-- **One candidate**: it is skipped, or reported and ranked. -/
theorem searchStep_eq (hidx : idx < tables.entries.length) (state : SearchState)
    (h : Lowered lower request state.chars) :
    ∃ chars, Lowered lower request chars ∧
      searchStep lower tables request state idx = some {
        chars
        matched := state.matched ++ matching lower tables request.query [idx]
        ranking := (matching lower tables request.query [idx]).foldl
          (rankNext lower tables request) state.ranking } := by
  obtain ⟨entry, hentry⟩ : ∃ entry, tables.entries[idx]? = some entry :=
    ⟨_, getElem?_eq_getElem hidx⟩
  obtain ⟨hrank, hchars⟩ := rankEntry_eq h entry
  have hnone : Lowered lower request none := Or.inl rfl
  have hmatches := rankText_isSome hnone entry.text
  refine ⟨(rankEntry lower request state.chars entry).2, hchars, ?_⟩
  rw [searchStep, hentry, matching, filter_cons, hentry]
  simp only [bind_eq_bind, bind_some, hrank, any_some]
  cases hcase : (rankText lower request none entry.text).1 with
  | none =>
    rw [hcase] at hmatches
    have hnot : ¬ Matches lower request.query entry.text := by
      rw [← hmatches]
      simp
    simp [hnot]
  | some rank =>
    rw [hcase] at hmatches
    have hyes : Matches lower request.query entry.text := hmatches.mp rfl
    have hnext : rankNext lower tables request state.ranking idx =
        if request.limit = 0 then state.ranking
        else insertRanked tables request state.ranking idx entry rank := by
      simp only [rankNext, hentry, hcase]
    by_cases hlimit : request.limit = 0
    · simp [hyes, hlimit, hnext]
    · simp [hyes, hlimit, hnext]

theorem matching_cons (query : List Char) (idx : Nat) (candidates : List Nat) :
    matching lower tables query (idx :: candidates) =
      matching lower tables query [idx] ++ matching lower tables query candidates := by
  simp only [matching, ← List.filter_append, singleton_append]

variable {candidates : List Nat}

/-- **The loop** reports and ranks the candidates that match, in their order. -/
theorem searchLoop_eq
    (hvalid : ∀ idx ∈ candidates, idx < tables.entries.length) (state : SearchState)
    (h : Lowered lower request state.chars) :
    ∃ chars, Lowered lower request chars ∧
      candidates.foldlM (searchStep lower tables request) state = some {
        chars
        matched := state.matched ++ matching lower tables request.query candidates
        ranking := (matching lower tables request.query candidates).foldl
          (rankNext lower tables request) state.ranking } := by
  induction candidates generalizing state with
  | nil => exact ⟨state.chars, h, by simp [matching]⟩
  | cons idx candidates ih =>
    obtain ⟨chars, hchars, hstep⟩ := searchStep_eq (hvalid idx (by simp)) state h
    obtain ⟨chars', hchars', hrest⟩ := ih (fun i hi => hvalid i (by simp [hi])) {
      chars
      matched := state.matched ++ matching lower tables request.query [idx]
      ranking := (matching lower tables request.query [idx]).foldl
        (rankNext lower tables request) state.ranking } hchars
    refine ⟨chars', hchars', ?_⟩
    rw [foldlM_cons, hstep, bind_eq_bind, bind_some, hrest,
      matching_cons _ idx candidates]
    simp only [append_assoc, foldl_append]

/-! ## Results -/

theorem materializeMatch_lowered
    (h : Lowered lower request chars)
    (hrank : (rankText lower request none text).1 = some rank) (idx : Nat) :
    materializeMatch lower rank idx text request.ascii (rankText lower request chars text).2 =
      materializeMatch lower rank idx text request.ascii (rankText lower request none text).2 := by
  simp only [rankText, h.getD, getD_none] at hrank ⊢
  by_cases hempty : request.empty = true
  · rw [if_pos hempty, some.injEq] at hrank
    rw [← hrank]
    rfl
  simp only [if_neg hempty] at hrank ⊢
  by_cases hascii : (request.is_ascii && isAscii text) = true
  · rw [if_pos hascii, if_pos hascii]
    rw [Bool.and_eq_true] at hascii
    rcases h with rfl | rfl
    · rfl
    · rw [ascii_eq hascii.1]
      exact materializeMatch_chars lower (isAscii_query hascii.1) hascii.2 (query_ne_nil hempty)
        rank idx
  · rw [if_neg hascii, if_neg hascii]

/-- A result looks the same whether or not the query was lowered before. -/
theorem materialize_congr (h : Lowered lower request chars) (idxs : List Nat) :
    materialize lower tables request chars idxs = materialize lower tables request none idxs := by
  induction idxs generalizing chars with
  | nil => rfl
  | cons idx idxs ih =>
    have hnone : Lowered lower request none := Or.inl rfl
    rw [materialize, materialize]
    cases hentry : tables.entries[idx]? with
    | none => rfl
    | some entry =>
      simp only [bind_eq_bind, bind_some, rankText_fst h entry.text,
        ih (lowered_rankText h entry.text), ih (lowered_rankText hnone entry.text)]
      cases hrank : (rankText lower request none entry.text).1 with
      | none => rfl
      | some rank =>
        simp only [bind_some, materializeMatch_lowered h hrank idx]

/-- **A search depends on its candidates only through those that match.** -/
theorem searchLimited_eq (hvalid : ∀ idx ∈ candidates, idx < tables.entries.length) :
    searchLimited lower tables request candidates =
      (if request.limit = 0 then some []
        else materialize lower tables request none
          (((matching lower tables request.query candidates).foldl
            (rankNext lower tables request) []).map (·.2))).map
        (matching lower tables request.query candidates, ·) := by
  obtain ⟨chars, hchars, hloop⟩ :=
    searchLoop_eq hvalid (initialState lower request) lowered_initialState
  rw [searchLimited, hloop]
  simp only [bind_eq_bind, bind_some, initialState, nil_append]
  by_cases hlimit : request.limit = 0
  · simp [hlimit]
  · rw [if_neg hlimit, if_neg hlimit, materialize_congr hchars]
    cases materialize lower tables request none _ <;> rfl

theorem materializeMatch_isSome
    (hrank : (rankText lower request none text).1 = some rank) (idx : Nat) :
    (materializeMatch lower rank idx text request.ascii
      (rankText lower request none text).2).isSome := by
  have hmatch : Matches lower request.query text := by
    rw [← rankText_isSome (Or.inl rfl), hrank]
    rfl
  cases rank with
  | Subsequence =>
    simp only [rankText, getD_none] at hrank ⊢
    by_cases hempty : request.empty = true
    · rw [if_pos hempty] at hrank
      cases hrank
    rw [if_neg hempty]
    by_cases hascii : (request.is_ascii && isAscii text) = true
    · rw [if_pos hascii]
      rw [Bool.and_eq_true] at hascii
      obtain ⟨hlowered, hbytes⟩ := isAscii_lowercaseQuery lower (isAscii_query hascii.1)
      rw [Matches, ← sublist_bytes_iff lower hlowered hascii.2, hbytes,
        ← ascii_eq hascii.1] at hmatch
      have hne : request.ascii ≠ [] := by
        rw [ascii_eq hascii.1]
        simpa using query_ne_nil hempty
      obtain ⟨found, hfound⟩ := isSome_iff_exists.mp
        ((subsequencePositions_isSome _ hne _).mpr hmatch)
      simp only [materializeMatch, subsequenceMatchAsciiBytes, hfound]
      rfl
    · rw [if_neg hascii]
      obtain ⟨found, hfound⟩ := isSome_iff_exists.mp
        ((subsequenceMatch_isSome lower).mpr hmatch)
      simp only [materializeMatch, hfound]
      rfl
  | _ => rfl

/-- **Every selected candidate still matches**, so the results are there. -/
theorem materialize_isSome
    (h : ∀ idx ∈ idxs, ∃ entry, tables.entries[idx]? = some entry ∧
      Matches lower request.query entry.text) :
    (materialize lower tables request none idxs).isSome := by
  induction idxs with
  | nil => rfl
  | cons idx idxs ih =>
    obtain ⟨entry, hentry, hmatch⟩ := h idx (by simp)
    have hnone : Lowered lower request none := Or.inl rfl
    obtain ⟨rank, hrank⟩ := isSome_iff_exists.mp ((rankText_isSome hnone _).mpr hmatch)
    obtain ⟨result, hresult⟩ := isSome_iff_exists.mp (materializeMatch_isSome hrank idx)
    obtain ⟨results, hresults⟩ := isSome_iff_exists.mp
      (ih fun i hi => h i (by simp [hi]))
    rw [materialize, hentry]
    simp only [bind_eq_bind, bind_some, hrank, hresult,
      materialize_congr (lowered_rankText hnone entry.text), hresults]
    rfl

variable {ranking : List (Tables.RankKey × Nat)}

theorem mem_insertRanked
    (h : row ∈ insertRanked tables request ranking idx entry rank) : row ∈ ranking ∨ row.2 = idx := by
  simp only [insertRanked] at h
  generalize (if request.empty = true then entry.total.timestamp else rank.score) = primary at h
  split at h
  · exact Or.inl h
  split at h
  · exact Or.inl h
  rcases eq_or_mem_of_mem_insertIdx h with rfl | hmem
  · exact Or.inr rfl
  · split at hmem
    · exact Or.inl (mem_of_mem_dropLast hmem)
    · exact Or.inl hmem

theorem mem_rankNext (h : row ∈ rankNext lower tables request ranking idx) :
    row ∈ ranking ∨ row.2 = idx := by
  rw [rankNext] at h
  split at h
  · exact Or.inl h
  split at h
  · exact Or.inl h
  split at h
  · exact Or.inl h
  · exact mem_insertRanked h

theorem mem_ranked {idxs : List Nat}
    (h : row ∈ idxs.foldl (rankNext lower tables request) ranking) :
    row ∈ ranking ∨ row.2 ∈ idxs := by
  induction idxs generalizing ranking with
  | nil => exact Or.inl h
  | cons idx idxs ih =>
    rcases ih h with hnext | hmem
    · rcases mem_rankNext hnext with hold | rfl
      · exact Or.inl hold
      · exact Or.inr (by simp)
    · exact Or.inr (by simp [hmem])

theorem mem_matching
    (h : idx ∈ matching lower tables query candidates) :
    ∃ entry, tables.entries[idx]? = some entry ∧ Matches lower query entry.text := by
  rw [matching, mem_filter, Option.any_eq_true] at h
  obtain ⟨_, entry, hentry, hmatch⟩ := h
  exact ⟨entry, hentry, of_decide_eq_true hmatch⟩

/-- **A search of entries does not fail.** -/
theorem searchLimited_isSome (hvalid : ∀ idx ∈ candidates, idx < tables.entries.length) :
    ∃ results, searchLimited lower tables request candidates =
      some (matching lower tables request.query candidates, results) := by
  rw [searchLimited_eq hvalid]
  by_cases hlimit : request.limit = 0
  · rw [if_pos hlimit]
    exact ⟨[], rfl⟩
  · have hsome : (materialize lower tables request none
        (((matching lower tables request.query candidates).foldl
          (rankNext lower tables request) []).map (·.2))).isSome := by
      apply materialize_isSome
      intro idx hidx
      obtain ⟨row, hrow, rfl⟩ := mem_map.mp hidx
      rcases mem_ranked hrow with hnil | hmem
      · cases hnil
      · exact mem_matching hmem
    obtain ⟨results, hresults⟩ := isSome_iff_exists.mp hsome
    rw [if_neg hlimit, hresults]
    exact ⟨results, rfl⟩

theorem entry_idx_materializeMatch
    (h : materializeMatch lower rank idx text bytes chars = some result) :
    result.entry_idx = idx := by
  cases rank with
  | Subsequence =>
    cases chars <;>
    · simp only [materializeMatch, bind_eq_bind, bind_eq_some_iff] at h
      obtain ⟨found, _, hresult⟩ := h
      cases hresult
      rfl
  | _ =>
    cases h
    rfl

/-- A result is for the candidate it was made from. -/
theorem mem_materialize (h : materialize lower tables request chars idxs = some results) (hresult : result ∈ results) : result.entry_idx ∈ idxs := by
  induction idxs generalizing chars results with
  | nil =>
    cases h
    cases hresult
  | cons idx idxs ih =>
    simp only [materialize, bind_eq_bind, bind_eq_some_iff] at h
    obtain ⟨entry, _, rank, _, first, hfirst, rest, hrest, hcons⟩ := h
    cases hcons
    rcases mem_cons.mp hresult with rfl | hmem
    · exact mem_cons.mpr (Or.inl (entry_idx_materializeMatch hfirst))
    · exact mem_cons_of_mem _ (ih hrest hmem)

theorem searchLimited_entry {candidates matched : List Nat}
    (hvalid : ∀ idx ∈ candidates, idx < tables.entries.length)
    (h : searchLimited lower tables request candidates = some (matched, results)) (hresult : result ∈ results) :
    result.entry_idx < tables.entries.length := by
  rw [searchLimited_eq hvalid, map_eq_some_iff] at h
  obtain ⟨_, hresults, hpair⟩ := h
  cases hpair
  split at hresults
  · cases hresults
    cases hresult
  · obtain ⟨row, hrow, hidx⟩ := mem_map.mp (mem_materialize hresults hresult)
    rcases mem_ranked hrow with hnil | hmem
    · cases hnil
    · rw [← hidx]
      exact hvalid _ (mem_of_mem_filter hmem)

end Search

end Ish.History
