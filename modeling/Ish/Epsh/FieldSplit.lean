import Ish.Epsh.Var
import Ish.Lib.Delimited
import Ish.Lib.Text

/-!
# Field splitting

The model of `field_split` in `crates/epsh/src/expand.rs`. The definition it is
compared with, `posixFields`, is that of `Ish.Lib.Delimited`: fields of the whole
text, with the fragments as chunks of it. A fragment that is not split is kept
as one piece, which stands for a field even when it is empty (`""`).
-/

namespace Ish.Epsh

open Ish.Lib Ish.Lib.Delimited List

/-- A fragment of an expanded word. -/
structure ExpandedWord where
  value : Text
  split_fields : Bool
  word_break : Bool
deriving DecidableEq

/-! ## The state machine -/

def ifsWs (ifs : Text) : List Text :=
  (shellChars ifs).filter fun c => c.all Text.isWhitespace

def ifsNws (ifs : Text) : List Text :=
  (shellChars ifs).filter fun c => !c.all Text.isWhitespace

structure SplitState where
  fields : List Text := []
  current : Text := []
  have_field : Bool := false

/-- `fields.push(std::mem::take(&mut current))` with `have_field` cleared. -/
def SplitState.push (st : SplitState) : SplitState :=
  { fields := st.fields ++ [st.current] }

/-- The loop over the characters of one fragment; every round takes one, so
their number is fuel enough. -/
def splitChars (ifs_ws ifs_nws : List Text) : Nat → List Text → SplitState → SplitState
  | 0, _, st => st
  | _, [], st => st
  | fuel + 1, ch :: chars, st =>
    if ifs_ws.contains ch then
      let st := if st.have_field then st.push else st
      let chars := chars.dropWhile ifs_ws.contains
      match chars with
      | [] => st
      | next :: rest =>
        if ifs_nws.contains next then
          splitChars ifs_ws ifs_nws fuel (rest.dropWhile ifs_ws.contains) st
        else splitChars ifs_ws ifs_nws fuel (next :: rest) st
    else if ifs_nws.contains ch then
      let st := if st.have_field then st.push
        else { st with fields := st.fields ++ [[]], have_field := false }
      splitChars ifs_ws ifs_nws fuel (chars.dropWhile ifs_ws.contains) st
    else
      splitChars ifs_ws ifs_nws fuel chars
        { st with current := st.current ++ ch, have_field := true }

def splitFragment (ifs : Text) (st : SplitState) (frag : ExpandedWord) : SplitState :=
  let st := if frag.word_break && st.have_field then st.push else st
  if !frag.split_fields || ifs.isEmpty then
    { st with current := st.current ++ frag.value, have_field := true }
  else
    let chars := shellChars frag.value
    splitChars (ifsWs ifs) (ifsNws ifs) chars.length chars st

def fieldSplit (fragments : List ExpandedWord) (ifs : Text) : List Text :=
  if fragments.isEmpty then []
  else
    let st := fragments.foldl (splitFragment ifs) {}
    if st.have_field then st.fields ++ [st.current] else st.fields

/-! ## The definition it is compared with -/

/-- A character of a fragment that is split. -/
def classify (ifs_ws ifs_nws : List Text) (unit : Text) : Piece Char :=
  if ifs_ws.contains unit then .white
  else if ifs_nws.contains unit then .delim
  else .keep unit

def fragmentPieces (ifs : Text) (frag : ExpandedWord) : List (Piece Char) :=
  if frag.split_fields then
    (shellChars frag.value).map (classify (ifsWs ifs) (ifsNws ifs))
  else [.keep frag.value]

def fragmentChunk (ifs : Text) (frag : ExpandedWord) : Chunk Char where
  word_break := frag.word_break
  pieces := fragmentPieces ifs frag

/-- The fields of the whole text. -/
def posixFields (fragments : List ExpandedWord) (ifs : Text) : List Text :=
  chunkFields (fragments.map (fragmentChunk ifs))

/-! ## The state machine restarts at every fragment -/

/-- What `field_split` takes a fragment for: with an empty `IFS`, one piece. -/
def codeChunk (ifs : Text) (frag : ExpandedWord) : Chunk Char where
  word_break := frag.word_break
  pieces := if ifs.isEmpty then [.keep frag.value] else fragmentPieces ifs frag

/-- The machine's state as fields given and a field in progress. -/
structure Shows (st : SplitState) (out : List Text) (pending : Option Text) : Prop where
  fields : st.fields = out
  pending : pending = if st.have_field then some st.current else none
  idle : st.have_field = false → st.current = []

variable {st : SplitState} {out : List Text}

theorem Shows.push {pending : Option Text} (h : Shows st out pending) :
    Shows (if st.have_field then st.push else st) (out ++ pending.toList) none := by
  obtain ⟨hfields, hpending, hidle⟩ := h
  cases hhave : st.have_field with
  | true => exact ⟨by simp [SplitState.push, hfields, hpending, hhave], rfl, fun _ => rfl⟩
  | false => exact ⟨by simp [hfields, hpending, hhave], by simp [hhave], hidle⟩

theorem Shows.delim {pending : Option Text}
    (h : Shows st out pending) :
    Shows (if st.have_field then st.push
      else { st with fields := st.fields ++ [[]], have_field := false })
      (out ++ [pending.getD []]) none := by
  obtain ⟨hfields, hpending, hidle⟩ := h
  cases hhave : st.have_field with
  | true => exact ⟨by simp [SplitState.push, hfields, hpending, hhave], rfl, fun _ => rfl⟩
  | false => exact ⟨by simp [hfields, hpending, hhave], rfl, fun _ => hidle hhave⟩

theorem Shows.keep {pending : Option Text}
    (h : Shows st out pending) (text : Text) :
    Shows { st with current := st.current ++ text, have_field := true } out
      (some (pending.getD [] ++ text)) := by
  obtain ⟨hfields, hpending, hidle⟩ := h
  refine ⟨hfields, ?_, fun h => by cases h⟩
  cases hhave : st.have_field with
  | true => simp [hpending, hhave]
  | false => simp [hpending, hhave, hidle hhave]

section Chars

variable {ifs_ws ifs_nws : List Text}

theorem classify_white {c : Text} (hws : ifs_ws.contains c = true) :
    classify ifs_ws ifs_nws c = .white := by
  rw [classify, if_pos hws]

theorem classify_delim {c : Text} (hws : ifs_ws.contains c = false)
    (hnws : ifs_nws.contains c = true) : classify ifs_ws ifs_nws c = .delim := by
  rw [classify, hws, hnws]
  rfl

theorem classify_keep {c : Text} (hws : ifs_ws.contains c = false)
    (hnws : ifs_nws.contains c = false) : classify ifs_ws ifs_nws c = .keep c := by
  rw [classify, hws, hnws]
  rfl

theorem map_dropWhile_white (chars : List Text) :
    (chars.dropWhile ifs_ws.contains).map (classify ifs_ws ifs_nws) =
      skipWhite (chars.map (classify ifs_ws ifs_nws)) := by
  have hwhite : Piece.isWhite ∘ classify ifs_ws ifs_nws = ifs_ws.contains := by
    funext unit
    simp only [Function.comp_apply, classify]
    cases ifs_ws.contains unit with
    | true => rfl
    | false => cases ifs_nws.contains unit <;> rfl
  rw [skipWhite, dropWhile_map, hwhite]

theorem restart_of_trimmed {s : State Char} {ps : List (Piece Char)}
    (hs : s.pending = none) (h : Trimmed ps) : restart s ps = .start := by
  have hwhite : startsWhite ps = false := by
    cases ps with
    | nil => rfl
    | cons p ps =>
      cases p with
      | white => exact absurd rfl h
      | delim => rfl
      | keep t => rfl
  cases s with
  | word f => cases hs
  | start => simp [restart, hwhite]
  | gap => simp [restart, hwhite]

/-- **One fragment**: the loop is the reader of delimited text, restarted. -/
theorem splitChars_shows (fuel : Nat) {chars : List Text} {ps : List (Piece Char)}
    (hps : chars.map (classify ifs_ws ifs_nws) = ps) (hfuel : chars.length ≤ fuel) {s : State Char}
    (h : Shows st out s.pending) :
    Shows (splitChars ifs_ws ifs_nws fuel chars st)
      (out ++ (go (restart s ps) ps).1) (go (restart s ps) ps).2.pending := by
  have hnil : (restart s []).pending = s.pending := by cases s <;> rfl
  induction fuel generalizing chars ps st out s with
  | zero =>
    obtain rfl := length_eq_zero_iff.mp (Nat.le_zero.mp hfuel)
    subst hps
    simpa [splitChars, hnil] using h
  | succ fuel ih =>
    cases chars with
    | nil =>
      subst hps
      simpa [splitChars, hnil] using h
    | cons ch chars =>
      rw [length_cons] at hfuel
      rw [map_cons] at hps
      generalize hqs : chars.map (classify ifs_ws ifs_nws) = qs at hps
      -- the loop after a delimiter: no field, and no white space in front
      have hnext : ∀ (rest : List Text) {rs : List (Piece Char)},
          rest.map (classify ifs_ws ifs_nws) = rs → rest.length ≤ fuel →
          Trimmed rs → ∀ {st : SplitState} {out : List Text}, Shows st out none →
          Shows (splitChars ifs_ws ifs_nws fuel rest st) (out ++ (go .start rs).1)
            (go .start rs).2.pending := by
        intro rest rs hrs hlen htrim st out hst
        have hrest := ih hrs hlen (s := .start) hst rfl
        rwa [restart_of_trimmed rfl htrim] at hrest
      have hlen : ∀ l : List Text, (l.dropWhile ifs_ws.contains).length ≤ l.length :=
        fun l => (dropWhile_suffix _).length_le
      have hskip : ∀ l : List Text, (l.dropWhile ifs_ws.contains).map
          (classify ifs_ws ifs_nws) = skipWhite (l.map (classify ifs_ws ifs_nws)) :=
        fun l => map_dropWhile_white l
      rw [splitChars]
      cases hws : ifs_ws.contains ch with
      | true =>
        rw [classify_white hws] at hps
        subst hps
        have hout : (go (restart s (.white :: qs)) (.white :: qs)).1 =
            s.pending.toList ++ (go .start (skipDelimiter qs)).1 := by
          rw [← (go_gap qs).1]
          cases s <;> rfl
        have hpending : (go (restart s (.white :: qs)) (.white :: qs)).2.pending =
            (go .start (skipDelimiter qs)).2.pending := by
          rw [← (go_gap qs).2]
          cases s <;> rfl
        have hchars := hskip chars
        have hcharsLen := hlen chars
        have htrim := skipWhite_trimmed qs
        rw [hout, hpending, ← append_assoc]
        rw [hqs] at hchars
        simp only [if_true]
        cases hdrop : chars.dropWhile ifs_ws.contains with
        | nil =>
          rw [hdrop, map_nil] at hchars
          have hnone : skipDelimiter qs = [] := by rw [skipDelimiter, ← hchars]
          simpa [hnone, State.pending] using h.push
        | cons next rest =>
          rw [hdrop, map_cons] at hchars
          rw [hdrop, length_cons] at hcharsLen
          have hnextWs : ifs_ws.contains next = false := by
            cases hw : ifs_ws.contains next with
            | false => rfl
            | true =>
              rw [← hchars, classify_white hw] at htrim
              exact absurd rfl htrim
          cases hnextNws : ifs_nws.contains next with
          | true =>
            rw [classify_delim hnextWs hnextNws] at hchars
            have hdelim : skipDelimiter qs =
                skipWhite (rest.map (classify ifs_ws ifs_nws)) := by
              rw [skipDelimiter, ← hchars]
            have hrestLen := hlen rest
            rw [hdelim]
            simp only [hnextNws, if_true]
            exact hnext _ (hskip rest) (by omega) (skipWhite_trimmed _) h.push
          | false =>
            rw [classify_keep hnextWs hnextNws] at hchars
            have hkeep : skipDelimiter qs =
                .keep next :: rest.map (classify ifs_ws ifs_nws) := by
              rw [skipDelimiter, ← hchars]
            rw [hkeep]
            simp only [hnextNws, Bool.false_eq_true, if_false]
            refine hnext (next :: rest) ?_ ?_ (by simp [Trimmed]) h.push
            · rw [map_cons, classify_keep hnextWs hnextNws]
            · rw [length_cons]
              omega
      | false =>
        cases hnws : ifs_nws.contains ch with
        | true =>
          rw [classify_delim hws hnws] at hps
          subst hps
          have hout : (go (restart s (.delim :: qs)) (.delim :: qs)).1 =
              [s.pending.getD []] ++ (go .start (skipWhite qs)).1 := by
            rw [go_start_skipWhite]
            cases s <;> rfl
          have hpending : (go (restart s (.delim :: qs)) (.delim :: qs)).2 =
              (go .start (skipWhite qs)).2 := by
            rw [go_start_skipWhite]
            cases s <;> rfl
          have hdrop := hskip chars
          have hdropLen := hlen chars
          rw [hqs] at hdrop
          rw [hout, hpending, ← append_assoc]
          simp only [Bool.false_eq_true, if_false, if_true]
          exact hnext _ hdrop (by omega) (skipWhite_trimmed qs) h.delim
        | false =>
          rw [classify_keep hws hnws] at hps
          subst hps
          have hrest := ih hqs (by omega) (s := .word (s.text ++ ch))
            (h.keep ch) rfl
          simp only [Bool.false_eq_true, if_false]
          cases s <;> exact hrest

end Chars

theorem foldl_splitFragment_shows (ifs : Text) (frags : List ExpandedWord)
    {s : State Char} (h : Shows st out s.pending) :
    let st := frags.foldl (splitFragment ifs) st
    (if st.have_field then st.fields ++ [st.current] else st.fields) =
      out ++ runFrom restart s (frags.map (codeChunk ifs)) := by
  induction frags generalizing st out s with
  | nil =>
    obtain ⟨hfields, hpending, -⟩ := h
    simp only [foldl_nil, map_nil, runFrom, finish, hpending, hfields]
    cases st.have_field <;> simp
  | cons frag frags ih =>
    rw [foldl_cons, map_cons, runFrom]
    have hbreak : Shows (if frag.word_break && st.have_field then st.push else st)
        (out ++ (breakWord frag.word_break s).1)
        (breakWord frag.word_break s).2.pending := by
      cases hbrk : frag.word_break with
      | true => simpa [breakWord, finish, State.pending] using h.push
      | false => simpa [breakWord] using h
    have hfrag : Shows (splitFragment ifs st frag)
        (out ++ (breakWord frag.word_break s).1 ++
          (go (restart (breakWord frag.word_break s).2 (codeChunk ifs frag).pieces)
            (codeChunk ifs frag).pieces).1)
        (go (restart (breakWord frag.word_break s).2 (codeChunk ifs frag).pieces)
          (codeChunk ifs frag).pieces).2.pending := by
      generalize breakWord frag.word_break s = broken at hbreak ⊢
      rw [splitFragment]
      cases hwhole : (!frag.split_fields || ifs.isEmpty) with
      | true =>
        have hpieces : (codeChunk ifs frag).pieces = [.keep frag.value] := by
          rw [Bool.or_eq_true] at hwhole
          rcases hwhole with hsplit | hifs
          · simp only [Bool.not_eq_true'] at hsplit
            simp [codeChunk, fragmentPieces, hsplit]
          · simp [codeChunk, hifs]
        have hkeep := hbreak.keep frag.value
        rw [hpieces]
        cases hs : broken.2 <;>
          simpa [restart, startsWhite, Piece.isWhite, go, step, State.pending,
            State.text, hs] using hkeep
      | false =>
        simp only [Bool.or_eq_false_iff, Bool.not_eq_false'] at hwhole
        obtain ⟨hsplit, hifs⟩ := hwhole
        have hpieces : (codeChunk ifs frag).pieces =
            (shellChars frag.value).map (classify (ifsWs ifs) (ifsNws ifs)) := by
          simp [codeChunk, fragmentPieces, hsplit, hifs]
        exact splitChars_shows _ hpieces.symm (Nat.le_refl _) hbreak
    have hrest := ih hfrag
    simp only [append_assoc] at hrest ⊢
    exact hrest

theorem fieldSplit_eq_runFrom (fragments : List ExpandedWord) (ifs : Text) :
    fieldSplit fragments ifs =
      runFrom restart .start (fragments.map (codeChunk ifs)) := by
  rw [fieldSplit]
  split
  · next hempty =>
      rw [List.isEmpty_iff] at hempty
      rw [hempty]
      rfl
  · exact foldl_splitFragment_shows ifs fragments (s := .start)
      ⟨rfl, rfl, fun _ => rfl⟩

/-! ## When the machine finds the fields -/

/-- The fragments of each word. -/
def words (fragments : List ExpandedWord) : List (List ExpandedWord) :=
  groupFrom ExpandedWord.word_break [] fragments

/-- A word of empty expansions only: fragments, but no text and no quotes. -/
def Hollow (word : List ExpandedWord) : Prop :=
  word ≠ [] ∧ ∀ frag ∈ word, frag.split_fields = true ∧ frag.value = []

/-- The condition on the input. An empty `IFS` makes a field of a hollow word.
Otherwise the machine loses the empty field of a delimiter after leading white
space, and gains one where a delimiter's white space ends a fragment; between
kept text and kept text the two must come out even. -/
def SplitsAsPosix (fragments : List ExpandedWord) (ifs : Text) : Prop :=
  if ifs = [] then ∀ word ∈ words fragments, ¬Hollow word
  else Balanced 0 (marks .fresh (fragments.map (fragmentChunk ifs)))

theorem shellChars_flatten (text : Text) : (shellChars text).flatten = text := by
  fun_induction shellChars text with
  | case1 => rfl
  | case2 c h => rfl
  | case3 c h literal chars ih => simp [ih]
  | case4 c chars h ih => simp [ih]

theorem shellChars_eq_nil {text : Text} : shellChars text = [] ↔ text = [] := by
  constructor
  · intro h
    rw [← shellChars_flatten text, h]
    rfl
  · rintro rfl
    rfl

section EmptyIfs

theorem fragmentPieces_keep (frag : ExpandedWord) :
    ∀ p ∈ fragmentPieces [] frag, p.isKeep = true := by
  intro p hp
  rw [fragmentPieces] at hp
  split at hp
  · obtain ⟨unit, -, rfl⟩ := mem_map.mp hp
    rfl
  · rw [mem_singleton.mp hp]
    rfl

theorem fragmentPieces_text (frag : ExpandedWord) :
    (fragmentPieces [] frag).flatMap Piece.text = frag.value := by
  rw [fragmentPieces]
  split
  · have htext : ∀ units : List Text, (units.map
        (classify (ifsWs []) (ifsNws []))).flatMap Piece.text = units.flatten := by
      intro units
      rw [flatMap_map, ← flatMap_id]
      rfl
    rw [htext, shellChars_flatten]
  · simp [Piece.text]

theorem fragmentPieces_eq_nil {frag : ExpandedWord} :
    fragmentPieces [] frag = [] ↔ frag.split_fields = true ∧ frag.value = [] := by
  rw [fragmentPieces]
  split
  · next hsplit => simp [hsplit, shellChars_eq_nil]
  · next hsplit => simp [hsplit]

/-- The fields of a word under an empty `IFS`. -/
theorem fields_word (word : List ExpandedWord) :
    fields (word.flatMap (fragmentPieces [])) =
      if ∀ frag ∈ word, frag.split_fields = true ∧ frag.value = [] then []
      else [word.flatMap ExpandedWord.value] := by
  have hkeep : ∀ p ∈ word.flatMap (fragmentPieces []), p.isKeep = true := by
    intro p hp
    obtain ⟨frag, -, hmem⟩ := mem_flatMap.mp hp
    exact fragmentPieces_keep frag p hmem
  have htext : (word.flatMap (fragmentPieces [])).flatMap Piece.text =
      word.flatMap ExpandedWord.value := by
    rw [flatMap_assoc]
    simp [fragmentPieces_text]
  rw [fields_of_keep hkeep, htext]
  simp only [List.isEmpty_iff, flatMap_eq_nil_iff, fragmentPieces_eq_nil]

/-- The fields the machine makes of a word under an empty `IFS`. -/
theorem fields_codeWord (word : List ExpandedWord) :
    fields (word.flatMap fun frag => [.keep frag.value]) =
      if word = [] then [] else [word.flatMap ExpandedWord.value] := by
  have hpieces : (word.flatMap fun frag => [.keep frag.value]) =
      word.map fun frag => Piece.keep frag.value := by
    rw [map_eq_flatMap]
  rw [hpieces, fields_of_keep (by simp [Piece.isKeep])]
  simp [flatMap_map, Piece.text]

private abbrev codeWordFields (word : List ExpandedWord) : List Text :=
  fields (word.flatMap fun frag => [.keep frag.value])

private abbrev wordFields (word : List ExpandedWord) : List Text :=
  fields (word.flatMap (fragmentPieces []))

theorem codeWordFields_of_hollow {word : List ExpandedWord} (h : Hollow word) :
    codeWordFields word = [[]] ∧ wordFields word = [] := by
  obtain ⟨hne, hall⟩ := h
  have htext : word.flatMap ExpandedWord.value = [] :=
    flatMap_eq_nil_iff.mpr fun frag hmem => (hall frag hmem).2
  exact ⟨by rw [codeWordFields, fields_codeWord, if_neg hne, htext],
    by rw [wordFields, fields_word, if_pos hall]⟩

theorem codeWordFields_of_not_hollow {word : List ExpandedWord} (h : ¬Hollow word) :
    codeWordFields word = wordFields word := by
  rw [codeWordFields, wordFields, fields_codeWord, fields_word]
  by_cases hnil : word = []
  · simp [hnil]
  · rw [if_neg hnil, if_neg fun hall => h ⟨hnil, hall⟩]

theorem length_wordFields_le (ws : List (List ExpandedWord)) :
    (ws.flatMap wordFields).length ≤ (ws.flatMap codeWordFields).length := by
  induction ws with
  | nil => simp
  | cons word ws ih =>
    rw [flatMap_cons, flatMap_cons, length_append, length_append]
    by_cases hw : Hollow word
    · have hfields := codeWordFields_of_hollow hw
      rw [hfields.1, hfields.2]
      simp only [length_nil, length_singleton]
      omega
    · rw [codeWordFields_of_not_hollow hw]
      omega

theorem flatMap_fields_iff (ws : List (List ExpandedWord)) :
    ws.flatMap codeWordFields = ws.flatMap wordFields ↔ ∀ word ∈ ws, ¬Hollow word := by
  induction ws with
  | nil => simp
  | cons word ws ih =>
    rw [flatMap_cons, flatMap_cons, forall_mem_cons]
    by_cases hw : Hollow word
    · have hfields := codeWordFields_of_hollow hw
      have hlen := length_wordFields_le ws
      constructor
      · intro heq
        rw [hfields.1, hfields.2] at heq
        have hlens := congrArg List.length heq
        simp only [length_append, length_nil, length_singleton] at hlens
        omega
      · intro hall
        exact absurd hw hall.1
    · rw [codeWordFields_of_not_hollow hw, append_cancel_left_eq, ih]
      simp [hw]

end EmptyIfs

theorem not_isDelim_keep (ifs : Text) (fragments : List ExpandedWord) (hifs : ifs = []) :
    ∀ c ∈ fragments.map (codeChunk ifs), ∀ p ∈ c.pieces, p.isDelim = false := by
  intro c hc p hp
  obtain ⟨frag, -, rfl⟩ := mem_map.mp hc
  simp only [codeChunk, hifs, isEmpty_nil, if_true, mem_singleton] at hp
  rw [hp]
  rfl

/-- **Field splitting**: the machine gives the fields of the whole text exactly
on the inputs of `SplitsAsPosix`. -/
theorem fieldSplit_eq_posixFields_iff (fragments : List ExpandedWord) (ifs : Text) :
    fieldSplit fragments ifs = posixFields fragments ifs ↔
      SplitsAsPosix fragments ifs := by
  rw [fieldSplit_eq_runFrom, SplitsAsPosix, posixFields]
  split
  · next hifs =>
      have hcode := (runFrom_restart_iff _).mpr
        (balanced_of_no_delim .fresh _ (not_isDelim_keep ifs fragments hifs))
      have hgroup : ∀ f : ExpandedWord → Chunk Char,
          (∀ frag, (f frag).word_break = frag.word_break) →
          chunkFields (fragments.map f) =
            (words fragments).flatMap fun word =>
              fields (word.flatMap fun frag => (f frag).pieces) := by
        intro f hf
        have hmap := groupFrom_map Chunk.word_break f [] fragments
        simp only [hf, map_nil] at hmap
        rw [chunkFields, hmap, flatMap_map, words]
        simp only [flatMap_map]
      rw [hcode, hgroup _ fun _ => rfl, hgroup _ fun _ => rfl]
      subst hifs
      exact flatMap_fields_iff (words fragments)
  · next hifs =>
      have hchunk : fragments.map (codeChunk ifs) = fragments.map (fragmentChunk ifs) := by
        refine map_congr_left fun frag _ => ?_
        simp [codeChunk, fragmentChunk, hifs]
      rw [hchunk]
      exact runFrom_restart_iff _

/-- Leading white space before a delimiter: the empty field is missing. -/
theorem fieldSplit_ne_posixFields :
    fieldSplit [⟨[' ', ':', 'a'], true, false⟩] [' ', ':'] ≠
      posixFields [⟨[' ', ':', 'a'], true, false⟩] [' ', ':'] := by
  decide

end Ish.Epsh
