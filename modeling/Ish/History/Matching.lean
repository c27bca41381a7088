import Ish.Lib.Ascii
import Ish.Lib.Swar

/-!
# Matching — how a query matches a history entry

The model of the matchers in `src/history.rs`: `rank_match` over characters and
`rank_match_ascii` over bytes, and what they share. Entries that match at all
are those whose lowercase characters contain the query's as a subsequence,
whichever matcher runs.
-/

namespace Ish.History

open Ish.Lib List
open Ascii

/-- `c.to_lowercase().next()`, which for ASCII is `to_ascii_lowercase`. -/
structure Lowercase where
  first : Char → Char
  ascii : ∀ c, c.toNat < 0x80 → first c = char (lowercase (byte c))

/-! ## Match data -/

structure FuzzyMatch where
  entry_idx : Nat
  match_positions : List Nat
  match_count : Nat
  score : Nat
  deriving DecidableEq, Repr

inductive MatchRank where
  | Empty
  | Prefix
  | BoundarySubstring (start : Nat)
  | Substring (start : Nat)
  | Subsequence
  deriving DecidableEq, Repr

def MatchRank.score : MatchRank → Nat
  | Empty => 0
  | Subsequence => 0
  | Substring _ => 1
  | BoundarySubstring _ => 2
  | Prefix => 3

/-- The positions of an array of 32, padded with zeros. -/
def positions (found : List Nat) : List Nat :=
  found.take 32 ++ List.replicate (32 - found.length) 0

/-! ## Scans over characters or bytes

Each scan runs in two forms in the source, over `u8` and over `char`. `lower`
lowers an element of the text, and `query` is already lowered. -/

section Scans

variable {α β : Type} [DecidableEq β] (lower : α → β)

def startsWith : List β → List α → Bool
  | [], _ => true
  | _ :: _, [] => false
  | q :: query, t :: text => lower t = q && startsWith query text

/-- The first start at which the query stands in the text, behind a word
boundary when `boundary_only` is set. -/
def findSubstring (isWordBoundary : α → Bool) (query : List β) (text : List α)
    (boundary_only : Bool) : Option Nat :=
  if text.length < query.length then none
  else (List.range (text.length - query.length + 1)).find? fun start =>
    (!boundary_only || start == 0 || (text[start - 1]?).any isWordBoundary) &&
      startsWith lower query (text.drop start)

/-- The forward pass: where the query is complete for the first time. -/
def firstEnd : List β → Nat → List α → Option Nat
  | _, _, [] => none
  | [], _, _ :: _ => none
  | q :: query, ti, t :: text =>
    if lower t = q then
      if query = [] then some ti else firstEnd query (ti + 1) text
    else firstEnd (q :: query) (ti + 1) text

/-- The last position from `ti` on that holds the last element of the query. -/
def lastEnd (last : β) : Nat → Nat → List α → Nat
  | last_end, _, [] => last_end
  | last_end, ti, t :: text =>
    lastEnd last (if lower t = last then ti else last_end) (ti + 1) text

/-- The backward pass over the reversed query and text, from position `ti`. -/
def backward : List β → Nat → List α → Nat
  | _, _, [] => 0
  | [], _, _ :: _ => 0
  | q :: query, ti, t :: text =>
    if lower t = q then
      if query = [] then ti else backward query (ti - 1) text
    else backward (q :: query) (ti - 1) text

/-- The forward pass within the window. -/
def windowPositions : List β → Nat → List α → List Nat
  | _, _, [] => []
  | [], _, _ :: _ => []
  | q :: query, ti, t :: text =>
    if lower t = q then ti :: windowPositions query (ti + 1) text
    else windowPositions (q :: query) (ti + 1) text

/-- The tighter of the windows that end at the first and at the last end. -/
def matchWindow (query : List β) (text : List α) (first_end last_end : Nat) : Nat × Nat :=
  let startOf (stop : Nat) := backward lower query.reverse stop (text.take (stop + 1)).reverse
  let start1 := startOf first_end
  if last_end = first_end then (start1, first_end)
  else
    let start2 := startOf last_end
    if last_end - start2 < first_end - start1 then (start2, last_end) else (start1, first_end)

/-- The positions of a subsequence of the text, for a query that is not empty. -/
def subsequencePositions (query : List β) (text : List α) : Option (List Nat × Nat) := do
  let last_q ← query.getLast?
  let first_end ← firstEnd lower query 0 text
  let last_end := lastEnd lower last_q first_end (first_end + 1) (text.drop (first_end + 1))
  let (window_start, window_end) := matchWindow lower query text first_end last_end
  let window := (text.take (window_end + 1)).drop window_start
  return (positions (windowPositions lower query window_start window), min query.length 32)

end Scans

/-! ## Over characters -/

def isWordBoundaryChar (c : Char) : Bool :=
  c == '/' || c == '-' || c == '_' || c == '.' || c == ' ' || c == '\t'

def isWordBoundaryByte (b : UInt8) : Bool :=
  b == 0x2f || b == 0x2d || b == 0x5f || b == 0x2e || b == 0x20 || b == 0x09

section Characters

variable (lower : Lowercase)

def lowercaseQuery (query : List Char) : List Char := query.map lower.first

def startsWithIcase (query text : List Char) : Bool := startsWith lower.first query text

def findSubstringIcaseAscii (query : List Char) (text : List UInt8) (boundary_only : Bool) :
    Option Nat :=
  findSubstring lowercase isWordBoundaryByte (query.map byte) text boundary_only

def findSubstringIcase (query text : List Char) (boundary_only : Bool) : Option Nat :=
  if query = [] then some 0
  else if isAscii text && isAscii query then
    findSubstringIcaseAscii query (Utf8.encode text) boundary_only
  else findSubstring lower.first isWordBoundaryChar query text boundary_only

def subsequenceMatchAscii (query text : List Char) : Option (List Nat × Nat) :=
  subsequencePositions lowercase (query.map byte) (Utf8.encode text)

def subsequenceMatchUnicode (query text : List Char) : Option (List Nat × Nat) :=
  subsequencePositions lower.first query text

def subsequenceMatch (query text : List Char) : Option (List Nat × Nat) :=
  if query = [] then some (positions [], 0)
  else if isAscii text && isAscii query then subsequenceMatchAscii query text
  else subsequenceMatchUnicode lower query text

def rankMatch (query text : List Char) : Option MatchRank :=
  if startsWithIcase lower query text then some .Prefix
  else
    match findSubstringIcase lower query text true with
    | some start => some (.BoundarySubstring start)
    | none =>
      match findSubstringIcase lower query text false with
      | some start => some (.Substring start)
      | none => (subsequenceMatch lower query text).map fun _ => .Subsequence

end Characters

/-! ## Over bytes -/

/-- The words of eight bytes of `find_either_byte`, and the bytes that remain. -/
def findEitherFrom (first second : UInt8) : Nat → List UInt8 → Option Nat
  | offset, b0 :: b1 :: b2 :: b3 :: b4 :: b5 :: b6 :: b7 :: rest =>
    let word := LittleEndian.toU64 [b0, b1, b2, b3, b4, b5, b6, b7]
    let matched := Swar.byteMask word first ||| Swar.byteMask word second
    if matched ≠ 0 then some (offset + Swar.trailingZeros matched / 8)
    else findEitherFrom first second (offset + 8) rest
  | offset, remainder =>
    (remainder.findIdx? fun byte => byte == first || byte == second).map (offset + ·)

def findEitherByte (haystack : List UInt8) (first second : UInt8) : Option Nat :=
  findEitherFrom first second 0 haystack

def isSubsequenceAsciiBytes : List UInt8 → List UInt8 → Bool
  | [], _ => true
  | byte :: query, text =>
    let scanned := match findEitherByte text byte (uppercase byte) with
      | none => false
      | some position => isSubsequenceAsciiBytes query (text.drop (position + 1))
    match text with
    | [] => scanned
    | next :: rest =>
      if next = byte ∨ next = uppercase byte then isSubsequenceAsciiBytes query rest
      else scanned

/-- The loop of `find_substring_icase_ascii_bytes`. A round moves `start` on. -/
def findSubstringBytesFrom (first : UInt8) (query text : List UInt8) (boundary_only : Bool)
    (last_start : Nat) : Nat → Nat → Option Nat
  | 0, _ => none
  | fuel + 1, start =>
    if last_start < start then none
    else
      match findEitherByte ((text.take (last_start + 1)).drop start) first
          (uppercase first) with
      | none => none
      | some skipped =>
        let start := start + skipped
        let at_boundary := start == 0 || (text[start - 1]?).any isWordBoundaryByte
        if (at_boundary || !boundary_only) &&
            startsWith lowercase query.tail (text.drop (start + 1)) then some start
        else findSubstringBytesFrom first query text boundary_only last_start fuel (start + 1)

def findSubstringIcaseAsciiBytes (query text : List UInt8) (boundary_only : Bool) :
    Option Nat :=
  match query with
  | [] => none
  | first :: _ =>
    if text.length < query.length then none
    else findSubstringBytesFrom first query text boundary_only (text.length - query.length)
      (text.length + 1) 0

def startsWithIcaseAscii (query text : List UInt8) : Bool :=
  startsWith lowercase query text

def subsequenceMatchAsciiBytes (query text : List UInt8) : Option (List Nat × Nat) :=
  subsequencePositions lowercase query text

def rankMatchAscii (query : List UInt8) (text : List Char) : Option MatchRank :=
  let bytes := Utf8.encode text
  if startsWithIcaseAscii query bytes then some .Prefix
  else if !isSubsequenceAsciiBytes query bytes then none
  else
    match findSubstringIcaseAsciiBytes query bytes true with
    | some start => some (.BoundarySubstring start)
    | none =>
      match findSubstringIcaseAsciiBytes query bytes false with
      | some start => some (.Substring start)
      | none => some .Subsequence

/-! ## Positions -/

def contiguousMatch (entry_idx score start len : Nat) : FuzzyMatch :=
  { entry_idx
    match_positions := positions ((List.range (min len 32)).map (start + ·))
    match_count := min len 32
    score }

/-- `None` where the source expects a match. -/
def materializeMatch (lower : Lowercase) (rank : MatchRank) (entry_idx : Nat)
    (text : List Char) (bytes : List UInt8) (chars : Option (List Char)) : Option FuzzyMatch :=
  let len := match chars with
    | none => bytes.length
    | some chars => chars.length
  match rank with
  | .Empty => some (contiguousMatch entry_idx 0 0 0)
  | .Prefix => some (contiguousMatch entry_idx 3 0 len)
  | .BoundarySubstring start => some (contiguousMatch entry_idx 2 start len)
  | .Substring start => some (contiguousMatch entry_idx 1 start len)
  | .Subsequence => do
    let (match_positions, match_count) ← match chars with
      | none => subsequenceMatchAsciiBytes bytes (Utf8.encode text)
      | some query => subsequenceMatch lower query text
    return { entry_idx, match_positions, match_count, score := 0 }

/-! ## The byte search -/

def isEither (first second byte : UInt8) : Bool := byte == first || byte == second

/-- **A word tells** whether one of its bytes is there, and where the first one is. -/
theorem word_eq (hlen : chunk.length = 8) (first second : UInt8) :
    let matched := Swar.byteMask (LittleEndian.toU64 chunk) first |||
      Swar.byteMask (LittleEndian.toU64 chunk) second
    (matched = 0 ∧ chunk.findIdx? (isEither first second) = none) ∨
      matched ≠ 0 ∧
        chunk.findIdx? (isEither first second) = some (Swar.trailingZeros matched / 8) := by
  intro matched
  cases hfind : chunk.find? (isEither first second) with
  | none =>
    rw [find?_eq_none] at hfind
    refine Or.inl ⟨Swar.eitherMask_eq_zero ?_ ?_ hlen, ?_⟩
    · intro hmem
      exact hfind first hmem (by simp [isEither])
    · intro hmem
      exact hfind second hmem (by simp [isEither])
    · rw [findIdx?_eq_none_iff]
      intro byte hmem
      exact Bool.eq_false_iff.mpr (hfind byte hmem)
  | some byte =>
    obtain ⟨hbyte, before, after, rfl, hbefore⟩ := find?_eq_some_iff_append.mp hfind
    have hnot : ∀ x ∈ before, isEither first second x = false := by
      intro x hx
      simpa using hbefore x hx
    have hmarks := @Swar.eitherMask_marks _ after byte first second
      (fun hmem => by simpa [isEither] using hnot first hmem)
      (fun hmem => by simpa [isEither] using hnot second hmem)
      (by simpa [isEither] using hbyte) hlen
    refine Or.inr ⟨hmarks.ne_zero, ?_⟩
    rw [findIdx?_append, findIdx?_eq_none_iff.mpr hnot, findIdx?_cons,
      if_pos hbyte, Swar.trailingZeros_of_marks hmarks]
    simp

theorem findEitherFrom_eq (first second : UInt8) (offset : Nat) (haystack : List UInt8) :
    findEitherFrom first second offset haystack =
      (haystack.findIdx? (isEither first second)).map (offset + ·) := by
  fun_induction findEitherFrom first second offset haystack with
  | case1 offset b0 b1 b2 b3 b4 b5 b6 b7 rest word matched hmatched =>
    have hlen : [b0, b1, b2, b3, b4, b5, b6, b7].length = 8 := rfl
    obtain ⟨_, hword⟩ := (word_eq hlen first second).resolve_left fun h => hmatched h.1
    have hsplit : b0 :: b1 :: b2 :: b3 :: b4 :: b5 :: b6 :: b7 :: rest =
        [b0, b1, b2, b3, b4, b5, b6, b7] ++ rest := rfl
    rw [hsplit, findIdx?_append, hword]
    rfl
  | case2 offset b0 b1 b2 b3 b4 b5 b6 b7 rest word matched hmatched ih =>
    have hlen : [b0, b1, b2, b3, b4, b5, b6, b7].length = 8 := rfl
    obtain ⟨_, hword⟩ := (word_eq hlen first second).resolve_right fun h => hmatched h.1
    have hsplit : b0 :: b1 :: b2 :: b3 :: b4 :: b5 :: b6 :: b7 :: rest =
        [b0, b1, b2, b3, b4, b5, b6, b7] ++ rest := rfl
    rw [ih, hsplit, findIdx?_append, hword]
    simp only [Option.none_or, Option.map_map]
    congr 1
    funext i
    simp only [Function.comp_apply, length_cons, length_nil]
    omega
  | case3 => rfl

theorem findEitherByte_eq (haystack : List UInt8) (first second : UInt8) :
    findEitherByte haystack first second = haystack.findIdx? (isEither first second) := by
  rw [findEitherByte, findEitherFrom_eq]
  simp

/-! ## What matches -/

section Scans

variable {α β : Type} [DecidableEq β] (lower : α → β)

theorem startsWith_iff (query : List β) (text : List α) :
    startsWith lower query text = true ↔ query <+: text.map lower := by
  induction query generalizing text with
  | nil => simp [startsWith]
  | cons q query ih =>
    cases text with
    | nil => simp [startsWith]
    | cons t text =>
      rw [startsWith, Bool.and_eq_true, ih, map_cons, cons_prefix_cons,
        decide_eq_true_iff, eq_comm]

theorem findSubstring_sublist
    (h : findSubstring lower isWordBoundary query text boundary_only = some start) :
    query.Sublist (text.map lower) := by
  rw [findSubstring] at h
  split at h
  · cases h
  · have hstart := find?_some h
    rw [Bool.and_eq_true, startsWith_iff] at hstart
    rw [map_drop] at hstart
    exact hstart.2.sublist.trans (drop_sublist _ _)

/-- **The forward pass decides** whether the query is a subsequence. -/
theorem firstEnd_isSome (hquery : query ≠ []) (ti : Nat) (text : List α) :
    (firstEnd lower query ti text).isSome ↔ query.Sublist (text.map lower) := by
  induction text generalizing query ti with
  | nil => simp [firstEnd, hquery]
  | cons t text ih =>
    obtain ⟨q, query, rfl⟩ := exists_cons_of_ne_nil hquery
    rw [firstEnd, map_cons]
    by_cases hq : lower t = q
    · rw [if_pos hq, hq, cons_sublist_cons]
      by_cases hnil : query = []
      · simp [hnil]
      · rw [if_neg hnil, ih hnil]
    · rw [if_neg hq, ih hquery, sublist_cons_iff]
      constructor
      · exact Or.inl
      · rintro (h | ⟨_, heq, _⟩)
        · exact h
        · exact absurd (List.cons.inj heq).1.symm hq

theorem subsequencePositions_isSome (hquery : query ≠ []) (text : List α) :
    (subsequencePositions lower query text).isSome ↔ query.Sublist (text.map lower) := by
  rw [← firstEnd_isSome lower hquery 0 text, subsequencePositions]
  obtain ⟨last, hlast⟩ : ∃ last, query.getLast? = some last :=
    ⟨query.getLast hquery, getLast?_eq_some_getLast hquery⟩
  rw [hlast]
  cases firstEnd lower query 0 text <;> simp

end Scans

/-- The first place of an element is the best one for a subsequence. -/
theorem cons_sublist_first {α : Type} {a : α} {before after query} (h : a ∉ before) :
    (a :: query).Sublist (before ++ a :: after) ↔ query.Sublist after := by
  induction before with
  | nil => exact cons_sublist_cons
  | cons b before ih =>
    simp only [mem_cons, not_or] at h
    rw [cons_append, sublist_cons_iff, ih h.2]
    constructor
    · rintro (hsub | ⟨_, heq, _⟩)
      · exact hsub
      · exact absurd (List.cons.inj heq).1 h.1
    · exact Or.inl

/-- **The byte scan decides** the same for bytes that are lowered already. -/
theorem isSubsequenceAsciiBytes_iff {query : List UInt8}
    (hquery : ∀ b ∈ query, lowercase b = b) (text : List UInt8) :
    isSubsequenceAsciiBytes query text = true ↔ query.Sublist (text.map lowercase) := by
  induction query generalizing text with
  | nil => simp [isSubsequenceAsciiBytes]
  | cons byte query ih =>
    have hbyte := hquery byte (by simp)
    have hrest : ∀ b ∈ query, lowercase b = b := fun b hb => hquery b (by simp [hb])
    have heither : ∀ b, isEither byte (uppercase byte) b = true ↔
        lowercase b = byte := by
      intro b
      rw [isEither, Bool.or_eq_true, beq_iff_eq, beq_iff_eq, eq_or_eq_uppercase hbyte]
    have hscan : (match findEitherByte text byte (uppercase byte) with
        | none => false
        | some position => isSubsequenceAsciiBytes query (text.drop (position + 1))) = true ↔
        (byte :: query).Sublist (text.map lowercase) := by
      rw [findEitherByte_eq]
      cases hfind : text.find? (isEither byte (uppercase byte)) with
      | none =>
        rw [find?_eq_none] at hfind
        have hnone : ∀ b ∈ text, isEither byte (uppercase byte) b = false :=
          fun b hb => Bool.eq_false_iff.mpr (hfind b hb)
        rw [findIdx?_eq_none_iff.mpr hnone]
        simp only [Bool.false_eq_true, false_iff]
        intro hsub
        obtain ⟨b, hb, hlower⟩ := mem_map.mp (hsub.subset mem_cons_self)
        exact hfind b hb ((heither b).mpr hlower)
      | some b =>
        obtain ⟨hb, before, after, rfl, hbefore⟩ := find?_eq_some_iff_append.mp hfind
        have hnot : ∀ x ∈ before, isEither byte (uppercase byte) x = false := by
          intro x hx
          simpa using hbefore x hx
        rw [findIdx?_append, findIdx?_eq_none_iff.mpr hnot, findIdx?_cons,
          if_pos hb, map_append, map_cons, (heither b).mp hb, cons_sublist_first]
        · simp [ih hrest]
        · rw [mem_map]
          rintro ⟨x, hx, hlower⟩
          have hmatch := (heither x).mpr hlower
          rw [hnot x hx] at hmatch
          cases hmatch
    cases text with
    | nil => exact hscan
    | cons next rest =>
      by_cases hnext : next = byte ∨ next = uppercase byte
      · show (if _ then _ else _) = true ↔ _
        rw [if_pos hnext, ih hrest, map_cons, (eq_or_eq_uppercase hbyte).mp hnext,
          cons_sublist_cons]
      · show (if _ then _ else _) = true ↔ _
        rw [if_neg hnext]
        exact hscan

/-! ## Both forms match alike -/

section Agreement

variable (lower : Lowercase) {query text : List Char}

theorem isAscii_cons :
    isAscii (c :: text) = true ↔ c.toNat < 0x80 ∧ isAscii text = true := by
  simp [isAscii]

theorem map_char_byte (h : isAscii text = true) : (text.map byte).map char = text := by
  induction text with
  | nil => rfl
  | cons c text ih =>
    obtain ⟨hc, htext⟩ := isAscii_cons.mp h
    rw [map_cons, map_cons, ih htext, char_byte hc]

theorem map_lowercase_byte (h : isAscii text = true) :
    ((text.map byte).map lowercase).map char = text.map lower.first := by
  induction text with
  | nil => rfl
  | cons c text ih =>
    obtain ⟨hc, htext⟩ := isAscii_cons.mp h
    simp only [map_cons]
    rw [ih htext, lower.ascii c hc]

theorem sublist_bytes_iff (hquery : isAscii query = true) (htext : isAscii text = true) :
    (query.map byte).Sublist ((Utf8.encode text).map lowercase) ↔
      query.Sublist (text.map lower.first) := by
  rw [encode_of_isAscii htext]
  constructor
  · intro h
    have hchars := h.map char
    rwa [map_char_byte hquery, map_lowercase_byte lower htext] at hchars
  · intro h
    have hbytes := h.map byte
    rw [← map_lowercase_byte lower htext, map_map (f := char),
      show byte ∘ char = id from funext byte_char, map_id] at hbytes
    exact hbytes

theorem isAscii_lowercaseQuery (h : isAscii query = true) :
    isAscii (lowercaseQuery lower query) = true ∧
      (lowercaseQuery lower query).map byte = (query.map byte).map lowercase := by
  induction query with
  | nil => exact ⟨rfl, rfl⟩
  | cons c query ih =>
    obtain ⟨hc, hquery⟩ := isAscii_cons.mp h
    obtain ⟨hascii, hbytes⟩ := ih hquery
    have hnat : (lowercase (byte c)).toNat < 0x80 := by
      rw [toNat_lowercase, toNat_byte hc]
      split <;> omega
    have hfirst : (lower.first c).toNat < 0x80 := by
      rw [lower.ascii c hc, char, Utf8.toNat_charOfNat (Or.inl (by omega))]
      exact hnat
    rw [lowercaseQuery, map_cons]
    constructor
    · exact isAscii_cons.mpr ⟨hfirst, hascii⟩
    · simp only [map_cons]
      rw [lower.ascii c hc, byte_char]
      exact congrArg _ hbytes

theorem findSubstringIcase_sublist
    (h : findSubstringIcase lower query text boundary_only = some start) :
    query.Sublist (text.map lower.first) := by
  rw [findSubstringIcase] at h
  split at h
  · rename_i hnil
    rw [hnil]
    exact nil_sublist _
  split at h
  · rename_i hascii
    rw [Bool.and_eq_true] at hascii
    rw [← sublist_bytes_iff lower hascii.2 hascii.1]
    exact findSubstring_sublist _ h
  · exact findSubstring_sublist _ h

theorem subsequenceMatch_isSome :
    (subsequenceMatch lower query text).isSome ↔ query.Sublist (text.map lower.first) := by
  rw [subsequenceMatch]
  by_cases hnil : query = []
  · simp [hnil]
  rw [if_neg hnil]
  split
  · rename_i hascii
    rw [Bool.and_eq_true] at hascii
    rw [← sublist_bytes_iff lower hascii.2 hascii.1]
    exact subsequencePositions_isSome _ (by simpa using hnil) _
  · exact subsequencePositions_isSome _ hnil _

/-- **Matching over characters** is being a subsequence of the lowered entry. -/
theorem rankMatch_isSome :
    (rankMatch lower query text).isSome ↔ query.Sublist (text.map lower.first) := by
  rw [rankMatch]
  by_cases hstart : startsWithIcase lower query text = true
  · rw [if_pos hstart]
    simpa using ((startsWith_iff _ _ _).mp hstart).sublist
  rw [if_neg hstart]
  cases hboundary : findSubstringIcase lower query text true with
  | some start => simpa using findSubstringIcase_sublist lower hboundary
  | none =>
    cases hsubstring : findSubstringIcase lower query text false with
    | some start => simpa using findSubstringIcase_sublist lower hsubstring
    | none => simpa using subsequenceMatch_isSome lower

/-- **Matching over bytes** is the same for ASCII. -/
theorem rankMatchAscii_isSome (hquery : isAscii query = true) (htext : isAscii text = true) :
    (rankMatchAscii ((query.map byte).map lowercase) text).isSome ↔
      (lowercaseQuery lower query).Sublist (text.map lower.first) := by
  obtain ⟨hascii, hbytes⟩ := isAscii_lowercaseQuery lower hquery
  rw [← sublist_bytes_iff lower hascii htext, hbytes]
  have hlowered : ∀ b ∈ (query.map byte).map lowercase, lowercase b = b := by
    intro b hb
    obtain ⟨x, _, rfl⟩ := mem_map.mp hb
    exact lowercase_lowercase x
  have hscan := isSubsequenceAsciiBytes_iff hlowered (Utf8.encode text)
  rw [rankMatchAscii]
  by_cases hstart : startsWithIcaseAscii ((query.map byte).map lowercase)
      (Utf8.encode text) = true
  · rw [if_pos hstart]
    simpa using ((startsWith_iff _ _ _).mp hstart).sublist
  rw [if_neg hstart, ← hscan]
  by_cases hsub : isSubsequenceAsciiBytes ((query.map byte).map lowercase)
      (Utf8.encode text) = true
  · rw [hsub]
    simp only [Bool.not_true, Bool.false_eq_true, if_false, iff_true]
    split
    · rfl
    · split <;> rfl
  · rw [Bool.eq_false_iff.mpr hsub]
    simp

theorem materializeMatch_chars (hquery : isAscii query = true) (htext : isAscii text = true)
    (hne : query ≠ []) (rank : MatchRank) (entry_idx : Nat) :
    materializeMatch lower rank entry_idx text ((query.map byte).map lowercase)
        (some (lowercaseQuery lower query)) =
      materializeMatch lower rank entry_idx text ((query.map byte).map lowercase)
        none := by
  obtain ⟨hascii, hbytes⟩ := isAscii_lowercaseQuery lower hquery
  have hsame : subsequenceMatch lower (lowercaseQuery lower query) text =
      subsequenceMatchAsciiBytes ((query.map byte).map lowercase)
        (Utf8.encode text) := by
    rw [subsequenceMatch, if_neg (by simpa [lowercaseQuery] using hne), htext, hascii,
      Bool.and_self, if_pos rfl, subsequenceMatchAscii, hbytes]
    rfl
  cases rank with
  | Subsequence => simp only [materializeMatch, hsame]
  | _ => simp [materializeMatch, lowercaseQuery]

end Agreement

/-! ## Letters -/

/-- The ASCII letters present, as one bit for each of `a..z`. -/
def letterMask (bytes : List UInt8) : UInt32 :=
  bytes.foldl (fun mask byte =>
    let lower := lowercase byte
    if 0x61 ≤ lower ∧ lower ≤ 0x7a then mask ||| 1 <<< (lower - 0x61).toUInt32 else mask) 0

/-- The bit of one byte. -/
def letterBit (byte : UInt8) : UInt32 :=
  if 0x61 ≤ lowercase byte ∧ lowercase byte ≤ 0x7a then
    1 <<< (lowercase byte - 0x61).toUInt32
  else 0

def Covers (mask bits : UInt32) : Prop := mask &&& bits = bits

theorem covers_iff : Covers mask bits ↔
    ∀ i, bits.toBitVec.getLsbD i = true → mask.toBitVec.getLsbD i = true := by
  rw [Covers, ← UInt32.toBitVec_inj, UInt32.toBitVec_and]
  constructor
  · intro h i hi
    have hbit := congrArg (·.getLsbD i) h
    simp only [BitVec.getLsbD_and, hi, Bool.and_true] at hbit
    exact hbit
  · intro h
    apply BitVec.eq_of_getLsbD_eq
    intro i _
    rw [BitVec.getLsbD_and]
    cases hi : bits.toBitVec.getLsbD i with
    | false => exact Bool.and_false _
    | true => rw [h i hi]; rfl

theorem covers_or : Covers mask (a ||| b) ↔ Covers mask a ∧ Covers mask b := by
  simp only [covers_iff, UInt32.toBitVec_or, BitVec.getLsbD_or, Bool.or_eq_true]
  constructor
  · intro h
    exact ⟨fun i hi => h i (Or.inl hi), fun i hi => h i (Or.inr hi)⟩
  · rintro ⟨ha, hb⟩ i (hi | hi)
    · exact ha i hi
    · exact hb i hi

theorem letterMask_eq (bytes : List UInt8) :
    letterMask bytes = bytes.foldl (fun mask byte => mask ||| letterBit byte) 0 := by
  rw [letterMask]
  congr 1
  funext mask byte
  simp only [letterBit]
  split
  · rfl
  · exact UInt32.or_zero.symm

theorem covers_foldl (bytes : List UInt8) (start : UInt32) :
    Covers mask (bytes.foldl (fun mask byte => mask ||| letterBit byte) start) ↔
      Covers mask start ∧ ∀ b ∈ bytes, Covers mask (letterBit b) := by
  induction bytes generalizing start with
  | nil => simp
  | cons b bytes ih => rw [foldl_cons, ih, covers_or, and_assoc, forall_mem_cons]

theorem covers_letterMask :
    Covers mask (letterMask bytes) ↔ ∀ b ∈ bytes, Covers mask (letterBit b) := by
  rw [letterMask_eq, covers_foldl]
  exact ⟨fun h => h.2, fun h => ⟨UInt32.and_zero, h⟩⟩

/-- **The letters of a query that matches** are letters of the entry. -/
theorem letters_of_sublist
    (h : query.Sublist (text.map lowercase)) :
    letterMask text &&& letterMask query = letterMask query := by
  refine covers_letterMask.mpr ?_
  intro b hb
  obtain ⟨x, hx, rfl⟩ := mem_map.mp (h.subset hb)
  have hbit : letterBit (lowercase x) = letterBit x := by
    rw [letterBit, letterBit, lowercase_lowercase]
  rw [hbit]
  exact covers_letterMask.mp UInt32.and_self x hx

end Ish.History
