import Ish.History.Search
import Ish.Lib.Best

/-!
# Ranking — the results of a search are the best matches in order

The byte matcher ranks an ASCII entry as the matcher over characters does: the
scan for the first byte of the query finds the same starts as testing every
one. What `search_limited` inserts in its bounded list is then the start of the
sorted list of all candidates that match.
-/

namespace Ish.History

open Ish.Lib List
open Ascii

/-! ## Substrings of bytes -/

/-- The test of `findSubstring` over bytes, at one start. -/
def standsAt (query text : List UInt8) (boundary_only : Bool) (start : Nat) : Bool :=
  (!boundary_only || start == 0 || (text[start - 1]?).any isWordBoundaryByte) &&
    startsWith lowercase query (text.drop start)

section Substrings

variable {first : UInt8} {query text : List UInt8} {boundary_only : Bool}

theorem isEither_uppercase (hfirst : lowercase first = first) (byte : UInt8) :
    isEither first (uppercase first) byte = true ↔ lowercase byte = first := by
  rw [isEither, Bool.or_eq_true, beq_iff_eq, beq_iff_eq, eq_or_eq_uppercase hfirst]

theorem not_standsAt (hfirst : lowercase first = first) {start byte}
    (hbyte : text[start]? = some byte)
    (heither : isEither first (uppercase first) byte = false) :
    standsAt (first :: query) text boundary_only start = false := by
  obtain ⟨hlt, hget⟩ := List.getElem?_eq_some_iff.mp hbyte
  have hdiffers : ¬ lowercase byte = first := by
    rw [← isEither_uppercase hfirst, heither]
    simp
  rw [standsAt, drop_eq_getElem_cons hlt, hget, startsWith, decide_eq_false hdiffers,
    Bool.false_and, Bool.and_false]

theorem standsAt_cons (hfirst : lowercase first = first) {start byte}
    (hbyte : text[start]? = some byte)
    (heither : isEither first (uppercase first) byte = true) :
    standsAt (first :: query) text boundary_only start =
      ((start == 0 || (text[start - 1]?).any isWordBoundaryByte || !boundary_only) &&
        startsWith lowercase query (text.drop (start + 1))) := by
  obtain ⟨hlt, hget⟩ := List.getElem?_eq_some_iff.mp hbyte
  rw [standsAt, drop_eq_getElem_cons hlt, hget, startsWith,
    decide_eq_true ((isEither_uppercase hfirst byte).mp heither), Bool.true_and]
  congr 1
  cases boundary_only <;> simp

/-- **The loop** finds the first start from `start` on, if it has rounds enough. -/
theorem findSubstringBytesFrom_eq (hfirst : lowercase first = first) {last_start}
    (hlast : last_start < text.length) (hfuel : last_start + 1 - start ≤ fuel) :
    findSubstringBytesFrom first (first :: query) text boundary_only last_start fuel start =
      (List.range' start (last_start + 1 - start)).find?
        (standsAt (first :: query) text boundary_only) := by
  induction fuel generalizing start with
  | zero =>
    rw [Nat.le_zero.mp hfuel]
    rfl
  | succ fuel ih =>
    rw [findSubstringBytesFrom]
    by_cases hend : last_start < start
    · rw [if_pos hend, show last_start + 1 - start = 0 by omega]
      rfl
    rw [if_neg hend, findEitherByte_eq]
    have hget : ∀ i, start + i ≤ last_start →
        ((text.take (last_start + 1)).drop start)[i]? = text[start + i]? := by
      intro i hi
      rw [getElem?_drop, getElem?_take_of_lt (by omega)]
    have hlength : ((text.take (last_start + 1)).drop start).length = last_start + 1 - start := by
      rw [length_drop, length_take]
      omega
    cases hfind : ((text.take (last_start + 1)).drop start).findIdx?
        (isEither first (uppercase first)) with
    | none =>
      rw [findIdx?_eq_none_iff] at hfind
      symm
      rw [find?_eq_none]
      intro i hi
      rw [mem_range'_1] at hi
      have hbyte := getElem?_eq_getElem (show i < text.length by omega)
      have hmem : text[i] ∈ (text.take (last_start + 1)).drop start := by
        apply mem_of_getElem? (i := i - start)
        rw [hget _ (by omega), show start + (i - start) = i by omega, hbyte]
      rw [not_standsAt hfirst hbyte (hfind _ hmem)]
      simp
    | some skipped =>
      obtain ⟨hlt, heither, hbefore⟩ := findIdx?_eq_some_iff_getElem.mp hfind
      rw [hlength] at hlt
      have hbyte : text[start + skipped]? =
          some ((text.take (last_start + 1)).drop start)[skipped] := by
        rw [← hget _ (by omega), getElem?_eq_getElem]
      -- The starts before the byte that was found are no match.
      have hskip : (List.range' start skipped).find?
          (standsAt (first :: query) text boundary_only) = none := by
        rw [find?_eq_none]
        intro i hi
        rw [mem_range'_1] at hi
        have hother := hbefore (i - start) (by omega)
        have hat : text[i]? = some ((text.take (last_start + 1)).drop start)[i - start] := by
          rw [← getElem?_eq_getElem, hget _ (by omega),
            show start + (i - start) = i by omega]
        rw [not_standsAt hfirst hat (by simpa using hother)]
        simp
      have hsplit : List.range' start (last_start + 1 - start) =
          List.range' start skipped ++ (start + skipped) ::
            List.range' (start + skipped + 1) (last_start + 1 - (start + skipped + 1)) := by
        rw [← range'_succ, range'_append_1]
        congr 1
        omega
      rw [hsplit, find?_append, hskip, Option.none_or]
      by_cases hmatched : standsAt (first :: query) text boundary_only (start + skipped) = true
      · rw [find?_cons_of_pos hmatched]
        rw [standsAt_cons hfirst hbyte heither] at hmatched
        exact if_pos hmatched
      · rw [find?_cons_of_neg hmatched, ← ih (by omega)]
        rw [standsAt_cons hfirst hbyte heither] at hmatched
        exact if_neg hmatched

/-- **Both scans** over bytes find the same start. -/
theorem findSubstringIcaseAsciiBytes_eq (hne : query ≠ [])
    (hquery : ∀ b ∈ query, lowercase b = b) :
    findSubstringIcaseAsciiBytes query text boundary_only =
      findSubstring lowercase isWordBoundaryByte query text boundary_only := by
  obtain ⟨first, rest, rfl⟩ := exists_cons_of_ne_nil hne
  rw [findSubstringIcaseAsciiBytes, findSubstring]
  by_cases hshort : text.length < (first :: rest).length
  · rw [if_pos hshort, if_pos hshort]
  rw [if_neg hshort, if_neg hshort]
  rw [length_cons] at *
  rw [findSubstringBytesFrom_eq (hquery first (by simp)) (by omega) (by omega), Nat.sub_zero,
    range_eq_range']
  rfl

end Substrings

/-! ## Ranks of ASCII entries -/

section Ranks

variable (lower : Lowercase) {query text : List Char}

theorem prefix_bytes_iff (hquery : isAscii query = true) (htext : isAscii text = true) :
    (query.map byte) <+: ((Utf8.encode text).map lowercase) ↔
      query <+: text.map lower.first := by
  rw [encode_of_isAscii htext]
  constructor
  · intro h
    have hchars := h.map char
    rwa [map_char_byte hquery, map_lowercase_byte lower htext] at hchars
  · intro h
    have hbytes := h.map byte
    rw [← map_lowercase_byte lower htext, map_map (f := char),
      show byte ∘ char = id from funext byte_char, map_id] at hbytes
    exact hbytes

/-- **The byte matcher** ranks an ASCII entry as the matcher over characters. -/
theorem rankMatchAscii_eq (hne : query ≠ []) (hquery : isAscii query = true)
    (htext : isAscii text = true) :
    rankMatchAscii ((query.map byte).map lowercase) text =
      rankMatch lower (lowercaseQuery lower query) text := by
  obtain ⟨hascii, hbytes⟩ := isAscii_lowercaseQuery lower hquery
  have hlowered : ∀ b ∈ (query.map byte).map lowercase, lowercase b = b := by
    intro b hb
    obtain ⟨x, _, rfl⟩ := mem_map.mp hb
    exact lowercase_lowercase x
  have hstart : startsWithIcaseAscii ((query.map byte).map lowercase)
      (Utf8.encode text) = startsWithIcase lower (lowercaseQuery lower query) text := by
    rw [Bool.eq_iff_iff, startsWithIcaseAscii, startsWithIcase, startsWith_iff, startsWith_iff,
      ← hbytes]
    exact prefix_bytes_iff lower hascii htext
  have hfind : ∀ boundary_only, findSubstringIcaseAsciiBytes
      ((query.map byte).map lowercase) (Utf8.encode text) boundary_only =
        findSubstringIcase lower (lowercaseQuery lower query) text boundary_only := by
    intro boundary_only
    rw [findSubstringIcaseAsciiBytes_eq (by simpa using hne) hlowered, findSubstringIcase,
      if_neg (by simpa [lowercaseQuery] using hne), htext, hascii, Bool.and_self, if_pos rfl,
      findSubstringIcaseAscii, hbytes]
  have hsub : isSubsequenceAsciiBytes ((query.map byte).map lowercase)
      (Utf8.encode text) = true ↔
        (lowercaseQuery lower query).Sublist (text.map lower.first) := by
    rw [isSubsequenceAsciiBytes_iff hlowered, ← hbytes]
    exact sublist_bytes_iff lower hascii htext
  rw [rankMatchAscii, rankMatch, hstart]
  by_cases hprefix : startsWithIcase lower (lowercaseQuery lower query) text = true
  · rw [if_pos hprefix, if_pos hprefix]
  rw [if_neg hprefix, if_neg hprefix, hfind, hfind]
  by_cases hmatch : isSubsequenceAsciiBytes ((query.map byte).map lowercase)
      (Utf8.encode text) = true
  · rw [hmatch]
    obtain ⟨found, hfound⟩ := Option.isSome_iff_exists.mp
      ((subsequenceMatch_isSome lower).mpr (hsub.mp hmatch))
    rw [hfound]
    rfl
  · -- What is no subsequence stands nowhere.
    have hnone := (rankMatch_isSome lower).not.mpr (hsub.not.mp hmatch)
    rw [rankMatch, if_neg hprefix] at hnone
    rw [Bool.eq_false_iff.mpr hmatch]
    exact (Option.not_isSome_iff_eq_none.mp hnone).symm

end Ranks

/-! ## The bounded list -/

section Ranking

variable (lower : Lowercase) (tables : Tables) (request : Request)

/-- The key a candidate is ranked by, when it matches. -/
def keyOf (idx : Nat) : Option Tables.RankKey := do
  let entry ← tables.entries[idx]?
  let rank ← (rankText lower request none entry.text).1
  let primary := if request.empty then entry.total.timestamp else rank.score
  return tables.rankKey idx entry primary request.empty request.cwd request.cwd_depth request.now

/-- Descending keys. -/
def KeyOrder (row other : Tables.RankKey × Nat) : Prop := other.1 ≤ row.1

instance : DecidableRel KeyOrder := fun row other => inferInstanceAs (Decidable (other.1 ≤ row.1))

instance : Std.Total KeyOrder := ⟨fun row other => le_total other.1 row.1⟩

instance : IsTrans (Tables.RankKey × Nat) KeyOrder :=
  ⟨fun _ _ _ hfirst hsecond => le_trans hsecond hfirst⟩

variable {lower tables request}

/-- A row below the last one in its first part is below it. -/
theorem le_of_first_lt {key worst : Tables.RankKey} (h : (ofLex key).1 < (ofLex worst).1) :
    key ≤ worst :=
  Prod.Lex.le_iff.mpr (Or.inl h)

/-- **One row** of the bounded list. -/
theorem best_insertRanked {rows ranking : List (Tables.RankKey × Nat)}
    (h : Best KeyOrder request.limit rows ranking) (hlimit : request.limit ≠ 0) {idx : Nat}
    (hprimary : primary = if request.empty then entry.total.timestamp else rank.score) :
    Best KeyOrder request.limit
      (rows ++ [(tables.rankKey idx entry primary request.empty request.cwd request.cwd_depth
        request.now, idx)])
      (insertRanked tables request ranking idx entry rank) := by
  rw [insertRanked]
  simp only [← hprimary]
  have hfirst : (ofLex (tables.rankKey idx entry primary request.empty request.cwd
      request.cwd_depth request.now)).1 = primary := rfl
  generalize tables.rankKey idx entry primary request.empty request.cwd request.cwd_depth
    request.now = key at hfirst ⊢
  by_cases hroom : ranking.length < request.limit
  · -- There is room: the row goes where it belongs.
    have hfull : (ranking.length == request.limit) = false := by
      rw [beq_eq_false_iff_ne]
      omega
    simp only [hfull, Bool.false_and, Bool.false_eq_true, if_false]
    have hinsert := h.insert hroom (key, idx)
    rw [← Best.insertIdx_takeWhile] at hinsert
    simpa only [KeyOrder, not_le] using hinsert
  have hlength : ranking.length = request.limit := by
    obtain ⟨_, _, _, hle, _⟩ := h
    omega
  have hne : ranking ≠ [] := ne_nil_of_length_pos (by omega)
  obtain ⟨front, worst, rfl⟩ : ∃ front worst, ranking = front ++ [worst] :=
    ⟨_, _, (dropLast_append_getLast hne).symm⟩
  simp only [hlength, beq_self_eq_true, Bool.true_and, getLast?_concat, Option.any_some,
    decide_eq_true_eq, if_true, dropLast_concat]
  have hskip : key ≤ worst.1 → Best KeyOrder request.limit (rows ++ [(key, idx)])
      (front ++ [worst]) := by
    intro hle
    exact h.skip hlength fun kept hkept => le_trans hle (h.before_last hkept)
  split
  · rename_i hlt
    exact hskip (le_of_first_lt (by rw [hfirst]; exact hlt))
  split
  · rename_i hle
    exact hskip hle
  · -- The row is above the last one, which gives way.
    rename_i hgt
    have hworst : KeyOrder (key, idx) worst := le_of_lt (not_le.mp hgt)
    have hreplace := h.replace hlength hworst
    rw [← Best.insertIdx_takeWhile] at hreplace
    have hlast : decide (key < worst.1) = false := decide_eq_false (not_lt.mpr hworst)
    have hsame : ((front ++ [worst]).takeWhile fun existing => decide (key < existing.1)) =
        front.takeWhile fun existing => decide (key < existing.1) := by
      rw [takeWhile_append]
      split
      · rename_i hall
        rw [takeWhile_cons, hlast, if_neg Bool.false_ne_true, append_nil]
        exact ((takeWhile_sublist _).eq_of_length hall).symm
      · rfl
    rw [hsame]
    simpa only [KeyOrder, not_le] using hreplace

/-- What a candidate that matches adds to the rows. -/
theorem rankNext_eq
    (hkey : keyOf lower tables request idx = some key)
    (h : Best KeyOrder request.limit rows ranking) :
    Best KeyOrder request.limit (rows ++ [(key, idx)])
      (rankNext lower tables request ranking idx) := by
  simp only [keyOf, Option.bind_eq_bind, Option.bind_eq_some_iff] at hkey
  obtain ⟨entry, hentry, rank, hrank, hsome⟩ := hkey
  cases hsome
  rw [rankNext, hentry]
  simp only [hrank]
  by_cases hlimit : request.limit = 0
  · rw [if_pos hlimit]
    obtain ⟨rest, hperm, hsorted, hlength, hrest⟩ := h
    have hnil : ranking = [] := eq_nil_of_length_eq_zero (by omega)
    subst hnil
    apply Best.skip ⟨rest, hperm, hsorted, hlength, hrest⟩ hlimit.symm
    intro kept hkept
    cases hkept
  · rw [if_neg hlimit]
    exact best_insertRanked h hlimit rfl

/-- The rows of some candidates. -/
def rowsOf (lower : Lowercase) (tables : Tables) (request : Request) (idxs : List Nat) :
    List (Tables.RankKey × Nat) :=
  idxs.filterMap fun idx => (keyOf lower tables request idx).map (·, idx)

/-- **The bounded list** is the start of the sorted rows, after any candidates. -/
theorem best_ranked
    (hkeys : ∀ idx ∈ idxs, (keyOf lower tables request idx).isSome) (h : Best KeyOrder request.limit rows ranking) :
    Best KeyOrder request.limit (rows ++ rowsOf lower tables request idxs)
      (idxs.foldl (rankNext lower tables request) ranking) := by
  induction idxs generalizing rows ranking with
  | nil => rwa [rowsOf, filterMap_nil, append_nil]
  | cons idx idxs ih =>
    obtain ⟨key, hkey⟩ := Option.isSome_iff_exists.mp (hkeys idx (by simp))
    have hnext := ih (fun i hi => hkeys i (by simp [hi])) (rankNext_eq hkey h)
    rw [rowsOf, filterMap_cons, hkey]
    rwa [append_assoc] at hnext

theorem keyOf_isSome (hentry : tables.entries[idx]? = some entry)
    (hmatch : Matches lower request.query entry.text) :
    (keyOf lower tables request idx).isSome := by
  have hlowered : Lowered lower request none := Or.inl rfl
  obtain ⟨rank, hrank⟩ := Option.isSome_iff_exists.mp
    ((rankText_isSome hlowered entry.text).mpr hmatch)
  simp [keyOf, hentry, hrank]

theorem map_materialize (h : materialize lower tables request chars idxs = some results) :
    results.map FuzzyMatch.entry_idx = idxs := by
  induction idxs generalizing chars results with
  | nil =>
    cases h
    rfl
  | cons idx idxs ih =>
    simp only [materialize, Option.bind_eq_bind, Option.bind_eq_some_iff] at h
    obtain ⟨entry, _, rank, _, first, hfirst, rest, hrest, hcons⟩ := h
    cases hcons
    rw [map_cons, ih hrest, entry_idx_materializeMatch hfirst]

theorem rowsOf_candidates
    (hkeys : ∀ idx ∈ idxs, (keyOf lower tables request idx).isSome) :
    (rowsOf lower tables request idxs).map (·.2) = idxs ∧
      ∀ row ∈ rowsOf lower tables request idxs,
        keyOf lower tables request row.2 = some row.1 := by
  constructor
  · induction idxs with
    | nil => rfl
    | cons idx idxs ih =>
      obtain ⟨key, hkey⟩ := Option.isSome_iff_exists.mp (hkeys idx (by simp))
      have hrest := ih fun i hi => hkeys i (by simp [hi])
      rw [rowsOf, filterMap_cons, hkey]
      rw [rowsOf] at hrest
      simp only [Option.map_some, map_cons, hrest]
  · intro row hrow
    obtain ⟨idx, _, hsome⟩ := mem_filterMap.mp hrow
    obtain ⟨key, hkey, rfl⟩ := Option.map_eq_some_iff.mp hsome
    exact hkey

variable (lower tables request) in
/-- `a` is ranked no lower than `b`. -/
def RankedBefore (a b : Nat) : Prop :=
  ∃ key other, keyOf lower tables request a = some key ∧
    keyOf lower tables request b = some other ∧ other ≤ key

/-- **A search** reports the candidates that match in their order, and results
in the first ones of them by descending key. Which matcher runs, and whether
the letters are tested, changes no rank. -/
theorem searchLimited_ranked {candidates : List Nat}
    (hvalid : ∀ idx ∈ candidates, idx < tables.entries.length) :
    (∃ (results : List FuzzyMatch) (ranked : List Nat), searchLimited lower tables request candidates =
        some (matching lower tables request.query candidates, results) ∧
      ranked.Perm (matching lower tables request.query candidates) ∧
      ranked.Pairwise (RankedBefore lower tables request) ∧
      results.map FuzzyMatch.entry_idx = ranked.take request.limit) ∧
    ∀ entry : Entry, request.is_ascii = true → request.query ≠ [] → isAscii entry.text = true →
      (rankEntry lower request none entry).1 =
        rankMatch lower (lowercaseQuery lower request.query) entry.text := by
  constructor
  · have hkeys : ∀ idx ∈ matching lower tables request.query candidates,
        (keyOf lower tables request idx).isSome := by
      intro idx hidx
      obtain ⟨entry, hentry, hmatch⟩ := mem_matching hidx
      exact keyOf_isSome hentry hmatch
    obtain ⟨hcandidates, hrows⟩ := rowsOf_candidates hkeys
    obtain ⟨sorted, hperm, hsorted, hbest⟩ := (best_ranked hkeys Best.nil).eq_take
    rw [nil_append] at hperm
    obtain ⟨results, hresults⟩ := @searchLimited_isSome lower tables request candidates hvalid
    refine ⟨results, sorted.map (·.2), hresults, ?_, ?_, ?_⟩
    · rw [← hcandidates]
      exact hperm.map _
    · rw [pairwise_map]
      refine hsorted.imp_of_mem ?_
      intro row other hrow hother hle
      exact ⟨row.1, other.1, hrows row (hperm.subset hrow), hrows other (hperm.subset hother), hle⟩
    · rw [searchLimited_eq hvalid, Option.map_eq_some_iff] at hresults
      obtain ⟨found, hfound, hpair⟩ := hresults
      cases hpair
      split at hfound
      · rename_i hlimit
        cases hfound
        rw [hlimit]
        rfl
      · rw [map_materialize hfound, hbest, map_take]
  · intro entry hascii hne htext
    rw [(rankEntry_eq (Or.inl rfl) entry).1, rankText, if_neg, hascii, htext, Bool.and_self,
      if_pos rfl, ascii_eq hascii]
    · exact rankMatchAscii_eq lower hne (isAscii_query hascii) htext
    · intro hempty
      exact hne (query_eq_nil hempty)

end Ranking

/-- Lowercase that leaves what is not ASCII alone. -/
def Lowercase.asciiOnly : Lowercase where
  first := fun c =>
    if c.toNat < 0x80 then char (lowercase (byte c)) else c
  ascii := fun _ hc => if_pos hc

/-- The tables with two commands. -/
def twoCommands : Tables :=
  { Tables.empty with
    entries := [Entry.new ['g', 'i', 't'], Entry.new ['l', 's']]
    latest_valid := by simp [Tables.empty] }

/-- `G` finds `git`. -/
def searchForG : Request := { query := ['G'], limit := 1, cwd := none, now := 0 }

theorem searchForG_ranked :
    (∃ (results : List FuzzyMatch) (ranked : List Nat),
      searchLimited Lowercase.asciiOnly twoCommands searchForG [0, 1] =
        some (matching Lowercase.asciiOnly twoCommands ['G'] [0, 1], results) ∧
      ranked.Perm (matching Lowercase.asciiOnly twoCommands ['G'] [0, 1]) ∧
      ranked.Pairwise (RankedBefore Lowercase.asciiOnly twoCommands searchForG) ∧
      results.map FuzzyMatch.entry_idx = ranked.take 1) ∧
    ∀ entry : Entry, searchForG.is_ascii = true → ['G'] ≠ [] → isAscii entry.text = true →
      (rankEntry Lowercase.asciiOnly searchForG none entry).1 =
        rankMatch Lowercase.asciiOnly (lowercaseQuery Lowercase.asciiOnly ['G']) entry.text :=
  @searchLimited_ranked Lowercase.asciiOnly twoCommands searchForG [0, 1] (by decide)

end Ish.History
