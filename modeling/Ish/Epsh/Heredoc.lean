import Ish.Epsh.Quoting
import Mathlib.Logic.Function.Iterate

/-!
# Here-documents

The model of `read_heredoc_body`, and the text that a here-document has by its logical
lines. The reader joins a line to the next one at most once before it compares, so it
takes the end of a longer line for the delimiter.
-/

namespace Ish.Epsh

open Ish.Lib List
open Process (bind_ok)

/-! ## The reader -/

/-- Leading tabs, which `<<-` strips. -/
def skipTabs : Nat → LexM Unit
  | 0 => Process.diverge
  | n + 1 => do
    match ← peekRaw with
    | some '\t' => do
      let _ ← advanceRaw
      skipTabs n
    | _ => return ()

/-- Read on to the end of the line, and say whether a newline ends it. -/
def readToNewline : Nat → Text → LexM (Text × Bool)
  | 0, _ => Process.diverge
  | n + 1, line => do
    match ← advanceRaw with
    | none => return (line, false)
    | some '\n' => return (line, true)
    | some c => readToNewline n (line ++ [c])

/-- Whether `line` ends in an odd number of backslashes. -/
def endsInBackslash (line : Text) : Bool :=
  (line.reverse.takeWhile (· == '\\')).length % 2 == 1

def PendingHereDoc.isDelimiter (heredoc : PendingHereDoc) (line : Text) : Bool :=
  strToBytes line == heredoc.delimiter

def stripTabs (heredoc : PendingHereDoc) (n : Nat) : LexM Unit :=
  if heredoc.strip_tabs then skipTabs n else return ()

/-- Strip tabs and read on to the end of the line. -/
def readHeredocLine (heredoc : PendingHereDoc) (n : Nat) (line : Text) : LexM (Text × Bool) := do
  stripTabs heredoc n
  readToNewline n line

/-- The loop of `read_heredoc_body`. -/
def readHeredocLoop (heredoc : PendingHereDoc) : Nat → Text → LexM Text
  | 0, _ => Process.diverge
  | n + 1, body => do
    let (line, ended) ← readHeredocLine heredoc n []
    if !ended then return if heredoc.isDelimiter line then body else body ++ line
    else if !heredoc.quoted && endsInBackslash line then
      -- The end of the input ends the second line as a newline does.
      let (line, _) ← readHeredocLine heredoc n line.dropLast
      if endsInBackslash line then readHeredocLoop heredoc n (body ++ line.dropLast)
      else if heredoc.isDelimiter line then return body
      else readHeredocLoop heredoc n (body ++ line ++ ['\n'])
    else if heredoc.isDelimiter line then return body
    else readHeredocLoop heredoc n (body ++ line ++ ['\n'])

/-- `read_heredoc_body` -/
def readHeredocBody (n : Nat) (heredoc : PendingHereDoc) : LexM Text :=
  readHeredocLoop heredoc n []

/-! ## Lines -/

/-- A line of a here-document: the physical lines it is joined from, without tabs that
are stripped and backslashes that continue, and what follows it. -/
structure HereLine where
  pieces : List Text
  ended : Bool
  rest : List Char
deriving DecidableEq

namespace HereLine

def text (line : HereLine) : Text := line.pieces.flatten

end HereLine

namespace PendingHereDoc

variable (heredoc : PendingHereDoc)

def stripped (src : List Char) : List Char :=
  if heredoc.strip_tabs then src.dropWhile (· == '\t') else src

/-- The physical line that `src` starts with. -/
def physicalText (src : List Char) : Text := (heredoc.stripped src).takeWhile (· != '\n')

def physicalEnded (src : List Char) : Bool := (heredoc.stripped src).contains '\n'

def physicalRest (src : List Char) : List Char :=
  ((heredoc.stripped src).dropWhile (· != '\n')).tail

/-- A line continues on the next one, unless the delimiter is quoted. -/
def isContinued (src : List Char) : Bool :=
  heredoc.physicalEnded src && !heredoc.quoted && endsInBackslash (heredoc.physicalText src)

theorem stripped_suffix (src : List Char) : heredoc.stripped src <:+ src := by
  unfold stripped
  split
  · exact dropWhile_suffix _
  · exact suffix_refl src

theorem physicalRest_suffix (src : List Char) : heredoc.physicalRest src <:+ src := by
  have htail := tail_suffix ((heredoc.stripped src).dropWhile (· != '\n'))
  have hdrop := dropWhile_suffix (· != '\n') (l := heredoc.stripped src)
  exact htail.trans (hdrop.trans (heredoc.stripped_suffix src))

variable {src : List Char}

theorem physicalRest_lt (h : heredoc.physicalEnded src = true) :
    (heredoc.physicalRest src).length < src.length := by
  have hstripped := (heredoc.stripped_suffix src).length_le
  have hsum := congrArg List.length
    (takeWhile_append_dropWhile (p := (· != '\n')) (l := heredoc.stripped src))
  have hmem : '\n' ∈ heredoc.stripped src := contains_iff_mem.mp h
  have hne : (heredoc.stripped src).dropWhile (· != '\n') ≠ [] := by
    intro hnil
    rw [dropWhile_eq_nil_iff] at hnil
    have hnl := hnil '\n' hmem
    simp at hnl
  have hpos := length_pos_iff.mpr hne
  rw [length_append] at hsum
  rw [physicalRest, List.length_tail]
  omega

/-- The logical line that `src` starts with. -/
def logicalLine (src : List Char) : HereLine :=
  if h : heredoc.isContinued src = true then
    have : (heredoc.physicalRest src).length < src.length := by
      unfold isContinued at h
      simp only [Bool.and_eq_true] at h
      exact heredoc.physicalRest_lt h.1.1
    let line := logicalLine (heredoc.physicalRest src)
    { line with pieces := (heredoc.physicalText src).dropLast :: line.pieces }
  else ⟨[heredoc.physicalText src], heredoc.physicalEnded src, heredoc.physicalRest src⟩
termination_by src.length

theorem logicalLine_continued (h : heredoc.isContinued src = true) :
    heredoc.logicalLine src =
      { heredoc.logicalLine (heredoc.physicalRest src) with
        pieces := (heredoc.physicalText src).dropLast ::
          (heredoc.logicalLine (heredoc.physicalRest src)).pieces } := by
  rw [logicalLine, dif_pos h]

theorem logicalLine_alone (h : heredoc.isContinued src = false) :
    heredoc.logicalLine src =
      ⟨[heredoc.physicalText src], heredoc.physicalEnded src, heredoc.physicalRest src⟩ := by
  rw [logicalLine, dif_neg (Bool.not_eq_true _ ▸ h)]

theorem physicalEnded_of_isContinued (h : heredoc.isContinued src = true) :
    heredoc.physicalEnded src = true := by
  unfold isContinued at h
  simp only [Bool.and_eq_true] at h
  exact h.1.1

theorem logicalLine_rest_suffix (src : List Char) : (heredoc.logicalLine src).rest <:+ src := by
  induction src using PendingHereDoc.logicalLine.induct heredoc with
  | case1 src h hlt ih =>
    rw [heredoc.logicalLine_continued h]
    exact ih.trans (heredoc.physicalRest_suffix src)
  | case2 src h =>
    rw [heredoc.logicalLine_alone (Bool.not_eq_true _ ▸ h)]
    exact heredoc.physicalRest_suffix src

theorem logicalLine_rest_lt (hended : (heredoc.logicalLine src).ended = true) :
    (heredoc.logicalLine src).rest.length < src.length := by
  cases h : heredoc.isContinued src with
  | true =>
    have hlt := heredoc.physicalRest_lt (heredoc.physicalEnded_of_isContinued h)
    have hsuffix := heredoc.logicalLine_rest_suffix (heredoc.physicalRest src)
    rw [heredoc.logicalLine_continued h]
    exact Nat.lt_of_le_of_lt hsuffix.length_le hlt
  | false =>
    rw [heredoc.logicalLine_alone h] at hended ⊢
    exact heredoc.physicalRest_lt hended

/-- The text of the here-document that `src` starts with, up to the first logical line
that is the delimiter, and what follows that line. -/
def document (src : List Char) : Text × List Char :=
  let line := heredoc.logicalLine src
  if heredoc.isDelimiter line.text then ([], line.rest)
  else if h : (heredoc.logicalLine src).ended = true then
    have := heredoc.logicalLine_rest_lt h
    let (body, rest) := document line.rest
    (line.text ++ '\n' :: body, rest)
  else (line.text, line.rest)
termination_by src.length

end PendingHereDoc

/-! ## Reading a line -/

namespace LexerState

/-- Read on until `rest` is left. -/
def readTo (rest : List Char) (s : LexerState) : LexerState :=
  advanced^[s.src.length - rest.length] s

theorem src_iterate_advanced (k : Nat) (s : LexerState) : (advanced^[k] s).src = s.src.drop k := by
  induction k generalizing s with
  | zero => rfl
  | succ k ih =>
    rw [Function.iterate_succ_apply, ih, src_advanced, ← drop_one, drop_drop,
      Nat.add_comm]

theorem src_readTo {s : LexerState} (h : rest <:+ s.src) :
    (s.readTo rest).src = rest := by
  rw [readTo, src_iterate_advanced]
  exact (suffix_iff_eq_drop.mp h).symm

theorem readTo_src (s : LexerState) : s.readTo s.src = s := by
  rw [readTo, Nat.sub_self]
  rfl

theorem readTo_readTo {s : LexerState} (h : rest <:+ s.src)
    (hlater : later <:+ rest) : (s.readTo rest).readTo later = s.readTo later := by
  have hle := h.length_le
  have hle' := hlater.length_le
  rw [readTo, src_readTo h, readTo, readTo, ← Function.iterate_add_apply]
  congr 1
  omega

theorem advanced_eq_readTo {s : LexerState} (h : s.src = c :: rest) :
    s.advanced = s.readTo rest := by
  rw [readTo, h, length_cons, Nat.add_sub_cancel_left]
  rfl

end LexerState

theorem peekRaw_run (s : LexerState) : peekRaw s = some (.ok s.src.head?, s) := rfl

theorem advanceRaw_run (s : LexerState) : advanceRaw s = some (.ok s.src.head?, s.advanced) := rfl

theorem skipTabs_run {s : LexerState} (hn : s.src.length < n) :
    skipTabs n s = some (.ok (), s.readTo (s.src.dropWhile (· == '\t'))) := by
  induction n generalizing s with
  | zero => omega
  | succ n ih =>
    rw [skipTabs, bind_ok (peekRaw_run s)]
    cases hsrc : s.src with
    | nil =>
      rw [dropWhile_nil, ← hsrc, LexerState.readTo_src, hsrc]
      rfl
    | cons c src =>
      have hsuffix : src <:+ s.src := hsrc ▸ suffix_cons c src
      have hstep : s.advanced = s.readTo src := LexerState.advanced_eq_readTo hsrc
      by_cases hc : c = '\t'
      · subst hc
        have hlt : s.advanced.src.length < n := by
          rw [hstep, LexerState.src_readTo hsuffix]
          rw [hsrc, length_cons] at hn
          omega
        have hrest := ih hlt
        rw [hstep, LexerState.src_readTo hsuffix,
          LexerState.readTo_readTo hsuffix (dropWhile_suffix _)] at hrest
        rw [dropWhile_cons_of_pos rfl, ← hrest, ← hstep]
        rfl
      · rw [dropWhile_cons_of_neg (by simpa using hc), ← hsrc, LexerState.readTo_src, hsrc,
          head?_cons]
        change _ = (pure () : LexM Unit) s
        refine congrFun ?_ s
        split
        · rename_i heq
          exact absurd (Option.some.inj heq) hc
        · rfl

variable {src : List Char}

theorem readToNewline_step
    (hsrc : s.src = c :: src) (hc : c ≠ '\n') (line : Text) :
    readToNewline (n + 1) line s = readToNewline n (line ++ [c]) s.advanced := by
  rw [readToNewline, bind_ok (advanceRaw_run s), hsrc, head?_cons]
  refine congrFun ?_ s.advanced
  split
  · cases ‹some c = none›
  · rename_i heq
    exact absurd (Option.some.inj heq) hc
  · rename_i heq
    cases heq
    rfl

theorem readToNewline_run {s : LexerState} (hn : s.src.length < n) (line : Text) :
    readToNewline n line s =
      some (.ok (line ++ s.src.takeWhile (· != '\n'), s.src.contains '\n'),
        s.readTo (s.src.dropWhile (· != '\n')).tail) := by
  induction n generalizing s line with
  | zero => omega
  | succ n ih =>
    cases hsrc : s.src with
    | nil =>
      have hstep : s.advanced = s := by
        unfold LexerState.advanced
        rw [hsrc]
      rw [readToNewline, bind_ok (advanceRaw_run s), hstep, takeWhile_nil,
        append_nil, dropWhile_nil, tail_nil, ← hsrc, LexerState.readTo_src, hsrc]
      rfl
    | cons c src =>
      have hsuffix : src <:+ s.src := hsrc ▸ suffix_cons c src
      have hstep : s.advanced = s.readTo src := LexerState.advanced_eq_readTo hsrc
      by_cases hc : c = '\n'
      · subst hc
        rw [readToNewline, bind_ok (advanceRaw_run s), hsrc, hstep]
        rw [takeWhile_cons_of_neg (by decide), dropWhile_cons_of_neg (by decide),
          append_nil, tail_cons, contains_cons]
        rfl
      · have hlt : s.advanced.src.length < n := by
          rw [hstep, LexerState.src_readTo hsuffix]
          rw [hsrc, length_cons] at hn
          omega
        have htail : (src.dropWhile (· != '\n')).tail <:+ src :=
          (tail_suffix _).trans (dropWhile_suffix _)
        have hne : (c != '\n') = true := by simpa using hc
        have hcontains : (c :: src).contains '\n' = src.contains '\n' := by
          rw [contains_cons, beq_false_of_ne (Ne.symm hc), Bool.false_or]
        rw [readToNewline_step hsrc hc, ih hlt, hstep, LexerState.src_readTo hsuffix,
          LexerState.readTo_readTo hsuffix htail, hcontains, append_assoc]
        have htake := takeWhile_cons_of_pos (p := (· != '\n')) (l := src) hne
        have hdrop := dropWhile_cons_of_pos (p := (· != '\n')) (l := src) hne
        rw [htake, hdrop]
        rfl

variable (heredoc : PendingHereDoc)

theorem readHeredocLine_run {s : LexerState} (hn : s.src.length < n) (line : Text) :
    readHeredocLine heredoc n line s =
      some (.ok (line ++ heredoc.physicalText s.src, heredoc.physicalEnded s.src),
        s.readTo (heredoc.physicalRest s.src)) := by
  unfold readHeredocLine
  have hstrip : stripTabs heredoc n s = some (.ok (), s.readTo (heredoc.stripped s.src)) := by
    unfold stripTabs PendingHereDoc.stripped
    split
    · exact skipTabs_run hn
    · rw [LexerState.readTo_src]
      rfl
  have hsuffix := heredoc.stripped_suffix s.src
  have hlt : (s.readTo (heredoc.stripped s.src)).src.length < n := by
    rw [LexerState.src_readTo hsuffix]
    exact Nat.lt_of_le_of_lt hsuffix.length_le hn
  have htail : ((heredoc.stripped s.src).dropWhile (· != '\n')).tail <:+ heredoc.stripped s.src :=
    (tail_suffix _).trans (dropWhile_suffix _)
  rw [bind_ok hstrip, readToNewline_run hlt, LexerState.src_readTo hsuffix,
    LexerState.readTo_readTo hsuffix htail]
  rfl

/-! ## Backslashes at the end of a line -/

theorem endsInBackslash_append (ha : endsInBackslash a = false) (b : Text) :
    endsInBackslash (a ++ b) = endsInBackslash b := by
  unfold endsInBackslash at ha ⊢
  rw [reverse_append, takeWhile_append]
  split
  · rename_i hall
    rw [length_append]
    have heven : (a.reverse.takeWhile (· == '\\')).length % 2 ≠ 1 := by simpa using ha
    rw [hall]
    have hsum : (b.reverse.length + (a.reverse.takeWhile (· == '\\')).length) % 2 =
        b.reverse.length % 2 := by omega
    rw [hsum]
  · rfl

theorem endsInBackslash_dropLast (ha : endsInBackslash a = true) :
    endsInBackslash a.dropLast = false := by
  induction a using List.reverseRecOn with
  | nil => cases ha
  | append_singleton a c =>
    rw [dropLast_concat]
    unfold endsInBackslash at ha ⊢
    rw [reverse_append, reverse_singleton, singleton_append] at ha
    by_cases hc : c = '\\'
    · subst hc
      rw [takeWhile_cons_of_pos (by decide), length_cons] at ha
      have hodd := eq_of_beq ha
      exact beq_false_of_ne (by omega)
    · rw [takeWhile_cons_of_neg (by simpa using hc)] at ha
      cases ha

theorem endsInBackslash_ne_nil (ha : endsInBackslash a = true) : a ≠ [] := by
  intro h
  rw [h] at ha
  cases ha

/-! ## What the reader makes of a logical line -/

namespace PendingHereDoc

/-- The pieces of a line that are compared with the delimiter: the last two, or one, as
they pair up from the first. -/
def lastPair : List Text → Text
  | _ :: _ :: c :: pieces => lastPair (c :: pieces)
  | pieces => pieces.flatten

/-- The pieces before them. -/
def beforeLastPair : List Text → Text
  | a :: b :: c :: pieces => a ++ b ++ beforeLastPair (c :: pieces)
  | _ => []

variable (heredoc : PendingHereDoc)

/-- What is added to the body for a line that no newline ends. -/
def readUnended : List Text → Text
  | [] => []
  | [a] => if heredoc.isDelimiter a then [] else a
  | [a, b] =>
    if endsInBackslash b then a ++ b.dropLast
    else if heredoc.isDelimiter (a ++ b) then []
    else a ++ b ++ ['\n']
  | a :: b :: c :: pieces => a ++ b ++ readUnended (c :: pieces)

/-- What the reader takes for the here-document that `src` starts with. -/
def readDocument (src : List Char) : Text × List Char :=
  let line := heredoc.logicalLine src
  if h : (heredoc.logicalLine src).ended = true then
    have := heredoc.logicalLine_rest_lt h
    if heredoc.isDelimiter (lastPair line.pieces) then (beforeLastPair line.pieces, line.rest)
    else
      let (body, rest) := readDocument line.rest
      (line.text ++ '\n' :: body, rest)
  else (heredoc.readUnended line.pieces, line.rest)
termination_by src.length

theorem readDocument_ended (h : (heredoc.logicalLine src).ended = true) :
    heredoc.readDocument src =
      if heredoc.isDelimiter (lastPair (heredoc.logicalLine src).pieces) then
        (beforeLastPair (heredoc.logicalLine src).pieces, (heredoc.logicalLine src).rest)
      else
        ((heredoc.logicalLine src).text ++ '\n' ::
          (heredoc.readDocument (heredoc.logicalLine src).rest).1,
          (heredoc.readDocument (heredoc.logicalLine src).rest).2) := by
  rw [readDocument, dif_pos h]

theorem readDocument_unended (h : (heredoc.logicalLine src).ended = false) :
    heredoc.readDocument src =
      (heredoc.readUnended (heredoc.logicalLine src).pieces, (heredoc.logicalLine src).rest) := by
  rw [readDocument, dif_neg (Bool.not_eq_true _ ▸ h)]

theorem logicalLine_pieces_ne_nil (src : List Char) : (heredoc.logicalLine src).pieces ≠ [] := by
  cases h : heredoc.isContinued src with
  | true =>
    rw [heredoc.logicalLine_continued h]
    exact cons_ne_nil _ _
  | false =>
    rw [heredoc.logicalLine_alone h]
    exact cons_ne_nil _ _

theorem readDocument_two_continued (h : heredoc.isContinued src = true)
    (h' : heredoc.isContinued (heredoc.physicalRest src) = true) :
    heredoc.readDocument src =
      ((heredoc.physicalText src).dropLast ++
        (heredoc.physicalText (heredoc.physicalRest src)).dropLast ++
        (heredoc.readDocument (heredoc.physicalRest (heredoc.physicalRest src))).1,
        (heredoc.readDocument (heredoc.physicalRest (heredoc.physicalRest src))).2) := by
  generalize hlater : heredoc.physicalRest (heredoc.physicalRest src) = later
  have hline := heredoc.logicalLine_continued h
  rw [heredoc.logicalLine_continued h', hlater] at hline
  have hne := heredoc.logicalLine_pieces_ne_nil later
  obtain ⟨c, pieces, hpieces⟩ := exists_cons_of_ne_nil hne
  cases hended : (heredoc.logicalLine later).ended with
  | true =>
    rw [heredoc.readDocument_ended (by rw [hline]; exact hended),
      heredoc.readDocument_ended hended, hline]
    dsimp only [HereLine.text]
    rw [hpieces, lastPair, beforeLastPair]
    split
    · rfl
    · simp only [flatten_cons, append_assoc]
  | false =>
    rw [heredoc.readDocument_unended (by rw [hline]; exact hended),
      heredoc.readDocument_unended hended, hline]
    dsimp only
    rw [hpieces, readUnended]

theorem readDocument_nil : heredoc.readDocument [] = ([], []) := by
  have hstripped : heredoc.stripped [] = [] := suffix_nil.mp (heredoc.stripped_suffix [])
  have hended : heredoc.physicalEnded [] = false := by
    rw [physicalEnded, hstripped]
    rfl
  have halone : heredoc.isContinued [] = false := by
    rw [isContinued, hended]
    rfl
  rw [heredoc.readDocument_unended (by rw [heredoc.logicalLine_alone halone]; exact hended),
    heredoc.logicalLine_alone halone, physicalText, physicalRest, hstripped]
  dsimp only [readUnended, takeWhile_nil, dropWhile_nil, tail_nil]
  split <;> rfl

/-- A line of its own that is no end of the source. -/
theorem readDocument_alone (h : heredoc.isContinued src = false)
    (hended : heredoc.physicalEnded src = true) :
    heredoc.readDocument src =
      if heredoc.isDelimiter (heredoc.physicalText src) then ([], heredoc.physicalRest src)
      else
        (heredoc.physicalText src ++ '\n' :: (heredoc.readDocument (heredoc.physicalRest src)).1,
          (heredoc.readDocument (heredoc.physicalRest src)).2) := by
  rw [heredoc.readDocument_ended (by rw [heredoc.logicalLine_alone h]; exact hended),
    heredoc.logicalLine_alone h]
  simp only [lastPair, beforeLastPair, HereLine.text, flatten_singleton]

/-- Two lines joined that are no end of the source. -/
theorem readDocument_pair (h : heredoc.isContinued src = true)
    (h' : heredoc.isContinued (heredoc.physicalRest src) = false)
    (hended : heredoc.physicalEnded (heredoc.physicalRest src) = true) :
    heredoc.readDocument src =
      if heredoc.isDelimiter
          ((heredoc.physicalText src).dropLast ++ heredoc.physicalText (heredoc.physicalRest src)) then
        ([], heredoc.physicalRest (heredoc.physicalRest src))
      else
        ((heredoc.physicalText src).dropLast ++ heredoc.physicalText (heredoc.physicalRest src) ++
          '\n' :: (heredoc.readDocument (heredoc.physicalRest (heredoc.physicalRest src))).1,
          (heredoc.readDocument (heredoc.physicalRest (heredoc.physicalRest src))).2) := by
  have hline := heredoc.logicalLine_continued h
  rw [heredoc.logicalLine_alone h'] at hline
  rw [heredoc.readDocument_ended (by rw [hline]; exact hended), hline]
  simp only [lastPair, beforeLastPair, HereLine.text, flatten_cons, flatten_nil,
    append_nil]

/-- Two lines joined at the end of the source. -/
theorem readDocument_pair_unended (h : heredoc.isContinued src = true)
    (hended : heredoc.physicalEnded (heredoc.physicalRest src) = false) :
    heredoc.readDocument src =
      (heredoc.readUnended
        [(heredoc.physicalText src).dropLast, heredoc.physicalText (heredoc.physicalRest src)],
        heredoc.physicalRest (heredoc.physicalRest src)) := by
  have h' : heredoc.isContinued (heredoc.physicalRest src) = false := by
    rw [isContinued, hended]
    rfl
  have hline := heredoc.logicalLine_continued h
  rw [heredoc.logicalLine_alone h'] at hline
  rw [heredoc.readDocument_unended (by rw [hline]; exact hended), hline]

/-- Where no newline ends a line, nothing follows it. -/
theorem physicalRest_unended (h : heredoc.physicalEnded src = false) :
    heredoc.physicalRest src = [] := by
  have hnone : ∀ c ∈ heredoc.stripped src, (c != '\n') = true := by
    intro c hc
    rw [bne_iff_ne]
    rintro rfl
    rw [physicalEnded, contains_iff_mem.mpr hc] at h
    cases h
  rw [physicalRest, dropWhile_eq_nil_iff.mpr hnone]
  rfl

end PendingHereDoc

theorem PendingHereDoc.readDocument_rest_suffix (src : List Char) :
    (heredoc.readDocument src).2 <:+ src := by
  induction src using PendingHereDoc.readDocument.induct heredoc with
  | case1 src line h hlt hdelimiter =>
    rw [heredoc.readDocument_ended h, if_pos hdelimiter]
    exact heredoc.logicalLine_rest_suffix src
  | case2 src line h hlt hdelimiter body rest heq ih =>
    rw [heredoc.readDocument_ended h, if_neg hdelimiter]
    exact ih.trans (heredoc.logicalLine_rest_suffix src)
  | case3 src h =>
    rw [heredoc.readDocument_unended (Bool.not_eq_true _ ▸ h)]
    exact heredoc.logicalLine_rest_suffix src

theorem physical_of_unended (h : heredoc.physicalEnded src = false) :
    heredoc.readDocument src =
      (if heredoc.isDelimiter (heredoc.physicalText src) then [] else heredoc.physicalText src,
        heredoc.physicalRest src) := by
  have halone : heredoc.isContinued src = false := by
    rw [PendingHereDoc.isContinued, h]
    rfl
  rw [heredoc.readDocument_unended (by rw [heredoc.logicalLine_alone halone]; exact h),
    heredoc.logicalLine_alone halone, PendingHereDoc.readUnended]

/-- **The reader joins the lines of a here-document in pairs.** -/
theorem readHeredocLoop_run {s : LexerState} (body : Text) (hn : s.src.length + 1 < n) :
    readHeredocLoop heredoc n body s =
      some (.ok (body ++ (heredoc.readDocument s.src).1),
        s.readTo (heredoc.readDocument s.src).2) := by
  induction n generalizing s body with
  | zero => omega
  | succ n ih =>
    -- What the loop does at a later place, by induction.
    have hlater : ∀ (rest : List Char) (body : Text), rest <:+ s.src → rest.length + 1 < n →
        readHeredocLoop heredoc n body (s.readTo rest) =
          some (.ok (body ++ (heredoc.readDocument rest).1),
            s.readTo (heredoc.readDocument rest).2) := by
      intro rest body hsuffix hlt
      have hrun := ih (s := s.readTo rest) body (by rw [LexerState.src_readTo hsuffix]; exact hlt)
      rw [LexerState.src_readTo hsuffix,
        LexerState.readTo_readTo hsuffix (heredoc.readDocument_rest_suffix rest)] at hrun
      exact hrun
    have hsuffix := heredoc.physicalRest_suffix s.src
    have hfirst : (heredoc.physicalText s.src, heredoc.physicalEnded s.src) =
      ([] ++ heredoc.physicalText s.src, heredoc.physicalEnded s.src) := rfl
    rw [readHeredocLoop, bind_ok (readHeredocLine_run heredoc (by omega) []), ← hfirst]
    dsimp only
    cases hended : heredoc.physicalEnded s.src with
    | false =>
      rw [physical_of_unended heredoc hended]
      dsimp only
      rw [if_pos (by decide), Process.pure_run]
      split
      · rw [append_nil]
      · rfl
    | true =>
      have hlt := heredoc.physicalRest_lt hended
      rw [if_neg (by decide)]
      cases hcontinued : (!heredoc.quoted && endsInBackslash (heredoc.physicalText s.src)) with
      | false =>
        have halone : heredoc.isContinued s.src = false := by
          rw [PendingHereDoc.isContinued, hended, Bool.true_and, hcontinued]
        rw [if_neg (by decide), heredoc.readDocument_alone halone hended]
        split
        · rw [Process.pure_run, append_nil]
        · rw [hlater _ _ hsuffix (by omega), append_assoc, append_assoc]
          rfl
      | true =>
        have hjoin : heredoc.isContinued s.src = true := by
          rw [PendingHereDoc.isContinued, hended, Bool.true_and, hcontinued]
        have hlt' : (s.readTo (heredoc.physicalRest s.src)).src.length < n := by
          rw [LexerState.src_readTo hsuffix]
          omega
        have hsuffix' := heredoc.physicalRest_suffix (heredoc.physicalRest s.src)
        rw [if_pos rfl, bind_ok (readHeredocLine_run heredoc hlt' _),
          LexerState.src_readTo hsuffix, LexerState.readTo_readTo hsuffix hsuffix']
        have hquoted : heredoc.quoted = false := by
          cases h : heredoc.quoted with
          | false => rfl
          | true =>
            rw [h] at hcontinued
            cases hcontinued
        rw [hquoted] at hcontinued
        have htext : endsInBackslash (heredoc.physicalText s.src).dropLast = false :=
          endsInBackslash_dropLast hcontinued
        dsimp only
        rw [endsInBackslash_append htext]
        cases hback : endsInBackslash (heredoc.physicalText (heredoc.physicalRest s.src)) with
        | true =>
          have hne := endsInBackslash_ne_nil hback
          rw [if_pos rfl, hlater _ _ (hsuffix'.trans hsuffix)
            (by have := hsuffix'.length_le; omega), dropLast_append_of_ne_nil hne]
          cases hended' : heredoc.physicalEnded (heredoc.physicalRest s.src) with
          | true =>
            have hjoin' : heredoc.isContinued (heredoc.physicalRest s.src) = true := by
              rw [PendingHereDoc.isContinued, hended', hquoted, hback]
              rfl
            rw [heredoc.readDocument_two_continued hjoin hjoin']
            simp only [append_assoc]
          | false =>
            rw [heredoc.readDocument_pair_unended hjoin hended',
              heredoc.physicalRest_unended hended', heredoc.readDocument_nil,
              PendingHereDoc.readUnended, if_pos hback]
            simp only [append_nil]
        | false =>
          have hjoin' : heredoc.isContinued (heredoc.physicalRest s.src) = false := by
            rw [PendingHereDoc.isContinued, hback, Bool.and_false]
          rw [if_neg (by decide)]
          cases hended' : heredoc.physicalEnded (heredoc.physicalRest s.src) with
          | true =>
            rw [heredoc.readDocument_pair hjoin hjoin' hended']
            split
            · rw [Process.pure_run, append_nil]
            · rw [hlater _ _ (hsuffix'.trans hsuffix)
                (by have := hsuffix'.length_le; omega)]
              simp only [append_assoc, singleton_append]
          | false =>
            rw [heredoc.readDocument_pair_unended hjoin hended',
              PendingHereDoc.readUnended, if_neg (Bool.eq_false_iff.mp hback)]
            split
            · rw [Process.pure_run, append_nil]
            · rw [heredoc.physicalRest_unended hended',
                hlater [] _ (nil_suffix) (by rw [length_nil]; omega),
                heredoc.readDocument_nil]
              simp only [append_assoc, append_nil]

/-! ## Where the reader keeps to the logical lines -/

namespace PendingHereDoc

theorem flatten_eq_pairs (pieces : List Text) :
    pieces.flatten = beforeLastPair pieces ++ lastPair pieces := by
  induction pieces using lastPair.induct with
  | case1 a b c pieces ih =>
    rw [beforeLastPair, lastPair, flatten_cons, flatten_cons, ih]
    simp only [append_assoc]
  | case2 pieces h =>
    rw [lastPair, beforeLastPair]
    · rfl
    · exact h
    · exact h

variable (heredoc : PendingHereDoc)

theorem flatten_ne_nil_of_last {pieces : List Text} (hlast : pieces.getLastD [] ≠ []) :
    pieces.flatten ≠ [] := by
  intro h
  cases hpieces : pieces.getLast? with
  | none =>
    rw [getLastD_eq_getLast?, hpieces] at hlast
    exact hlast rfl
  | some last =>
    rw [getLastD_eq_getLast?, hpieces] at hlast
    exact hlast (flatten_eq_nil_iff.mp h last (mem_of_getLast? hpieces))

theorem readUnended_eq {pieces : List Text} (hne : pieces ≠ []) :
    heredoc.readUnended pieces =
      if pieces.length % 2 = 1 then
        if heredoc.isDelimiter (lastPair pieces) then beforeLastPair pieces else pieces.flatten
      else if endsInBackslash (pieces.getLastD []) then pieces.flatten.dropLast
      else if heredoc.isDelimiter (lastPair pieces) then beforeLastPair pieces
      else pieces.flatten ++ ['\n'] := by
  induction pieces using lastPair.induct with
  | case1 a b c pieces ih =>
    have hparity : (a :: b :: c :: pieces).length % 2 = (c :: pieces).length % 2 := by
      simp only [length_cons]
      omega
    have hlast : (a :: b :: c :: pieces).getLastD [] = (c :: pieces).getLastD [] := rfl
    have hflatten : (a :: b :: c :: pieces).flatten = a ++ b ++ (c :: pieces).flatten := by
      simp only [flatten_cons, append_assoc]
    rw [readUnended, ih (cons_ne_nil _ _), hparity, hlast, hflatten, lastPair, beforeLastPair]
    split
    · rw [apply_ite (a ++ b ++ ·)]
    · split
      · rename_i hback
        have hpos := flatten_ne_nil_of_last (endsInBackslash_ne_nil hback)
        rw [dropLast_append_of_ne_nil hpos]
      · rw [apply_ite (a ++ b ++ ·)]
        simp only [append_assoc]
  | case2 pieces h =>
    match pieces with
    | [] => exact absurd rfl hne
    | [a] => simp [readUnended, lastPair, beforeLastPair]
    | [a, b] =>
      have hflatten : [a, b].flatten = a ++ b := by simp
      have hlast : [a, b].getLastD [] = b := rfl
      have hpair : lastPair [a, b] = a ++ b := by simp [lastPair]
      have hbefore : beforeLastPair [a, b] = [] := by simp [beforeLastPair]
      rw [readUnended, hpair, hbefore, hflatten, hlast]
      have heven : ¬ [a, b].length % 2 = 1 := by
        simp only [length_cons, length_nil]
        omega
      rw [if_neg heven]
      split
      · rename_i hback
        rw [dropLast_append_of_ne_nil (endsInBackslash_ne_nil hback)]
      · rfl
    | a :: b :: c :: pieces => exact absurd rfl (h a b c pieces)

/-- The reader ends the here-document at a line that a newline ends exactly if the line
is the delimiter, and has added nothing for its first lines when it does. -/
def KeepsEnded (pieces : List Text) : Prop :=
  heredoc.isDelimiter (lastPair pieces) = heredoc.isDelimiter pieces.flatten ∧
    (heredoc.isDelimiter pieces.flatten = true → beforeLastPair pieces = [])

/-- What is read of the end of the source, which is a line without a newline, is its text,
or nothing if it is the delimiter. -/
def KeepsUnended (pieces : List Text) : Prop :=
  if pieces.length % 2 = 1 then
    if heredoc.isDelimiter pieces.flatten then
      heredoc.isDelimiter (lastPair pieces) = true ∧ beforeLastPair pieces = []
    else heredoc.isDelimiter (lastPair pieces) = true → lastPair pieces = []
  else if endsInBackslash (pieces.getLastD []) then
    heredoc.isDelimiter pieces.flatten = true ∧ pieces.flatten.length = 1
  else
    heredoc.isDelimiter (lastPair pieces) = true ∧
      if heredoc.isDelimiter pieces.flatten then beforeLastPair pieces = [] else lastPair pieces = []

def KeepsLine (line : HereLine) : Prop :=
  if line.ended then heredoc.KeepsEnded line.pieces else heredoc.KeepsUnended line.pieces

instance (pieces : List Text) : Decidable (heredoc.KeepsEnded pieces) :=
  inferInstanceAs (Decidable (_ ∧ _))

instance (pieces : List Text) : Decidable (heredoc.KeepsUnended pieces) := by
  unfold KeepsUnended
  infer_instance

instance (line : HereLine) : Decidable (heredoc.KeepsLine line) := by
  unfold KeepsLine
  infer_instance

/-- The logical lines from `src` on, to the delimiter or the end. -/
def documentLines (src : List Char) : List HereLine :=
  let line := heredoc.logicalLine src
  if heredoc.isDelimiter line.text then [line]
  else if h : (heredoc.logicalLine src).ended = true then
    have := heredoc.logicalLine_rest_lt h
    line :: documentLines line.rest
  else [line]
termination_by src.length

theorem readUnended_keeps {pieces : List Text} (hne : pieces ≠ []) :
    heredoc.readUnended pieces =
        (if heredoc.isDelimiter pieces.flatten then [] else pieces.flatten) ↔
      heredoc.KeepsUnended pieces := by
  have hpairs := flatten_eq_pairs pieces
  rw [heredoc.readUnended_eq hne, KeepsUnended]
  by_cases hodd : pieces.length % 2 = 1
  · rw [if_pos hodd, if_pos hodd]
    by_cases hwhole : heredoc.isDelimiter pieces.flatten = true
    · rw [if_pos hwhole, if_pos hwhole]
      by_cases hpair : heredoc.isDelimiter (lastPair pieces) = true
      · rw [if_pos hpair]
        exact ⟨fun h => ⟨hpair, h⟩, fun h => h.2⟩
      · rw [if_neg hpair]
        constructor
        · intro hnil
          rw [hnil] at hpairs hwhole
          have hlast := (append_eq_nil_iff.mp hpairs.symm).2
          rw [hlast] at hpair
          exact absurd hwhole hpair
        · intro h
          exact absurd h.1 hpair
    · rw [if_neg hwhole, if_neg hwhole]
      by_cases hpair : heredoc.isDelimiter (lastPair pieces) = true
      · rw [if_pos hpair, hpairs]
        simp [hpair]
      · rw [if_neg hpair]
        simp [hpair]
  · rw [if_neg hodd, if_neg hodd]
    by_cases hback : endsInBackslash (pieces.getLastD []) = true
    · rw [if_pos hback, if_pos hback]
      have hpos := flatten_ne_nil_of_last (endsInBackslash_ne_nil hback)
      have hlength := length_pos_iff.mpr hpos
      have hdrop := @length_dropLast _ pieces.flatten
      by_cases hwhole : heredoc.isDelimiter pieces.flatten = true
      · rw [if_pos hwhole, ← length_eq_zero_iff, hdrop]
        constructor
        · intro h
          exact ⟨hwhole, by omega⟩
        · rintro ⟨-, h⟩
          omega
      · rw [if_neg hwhole]
        constructor
        · intro h
          rw [h] at hdrop
          omega
        · intro h
          exact absurd h.1 hwhole
    · rw [if_neg hback, if_neg hback]
      by_cases hpair : heredoc.isDelimiter (lastPair pieces) = true
      · rw [if_pos hpair]
        split
        · exact ⟨fun h => ⟨hpair, h⟩, fun h => h.2⟩
        · rw [hpairs]
          simp [hpair]
      · rw [if_neg hpair]
        constructor
        · intro h
          split at h <;> simp at h
        · intro h
          exact absurd h.1 hpair

theorem document_ended (h : (heredoc.logicalLine src).ended = true) :
    heredoc.document src =
      if heredoc.isDelimiter (heredoc.logicalLine src).text then ([], (heredoc.logicalLine src).rest)
      else
        ((heredoc.logicalLine src).text ++ '\n' ::
          (heredoc.document (heredoc.logicalLine src).rest).1,
          (heredoc.document (heredoc.logicalLine src).rest).2) := by
  rw [document, dif_pos h]

theorem document_unended (h : (heredoc.logicalLine src).ended = false) :
    heredoc.document src =
      (if heredoc.isDelimiter (heredoc.logicalLine src).text then [] else (heredoc.logicalLine src).text,
        (heredoc.logicalLine src).rest) := by
  rw [document, dif_neg (Bool.not_eq_true _ ▸ h)]
  split <;> rfl

theorem readDocument_line (h : (heredoc.logicalLine src).ended = true) :
    heredoc.readDocument src = heredoc.document src ↔
      heredoc.KeepsEnded (heredoc.logicalLine src).pieces ∧
        (heredoc.isDelimiter (heredoc.logicalLine src).text = false →
          heredoc.readDocument (heredoc.logicalLine src).rest =
            heredoc.document (heredoc.logicalLine src).rest) := by
  have hpairs := flatten_eq_pairs (heredoc.logicalLine src).pieces
  rw [heredoc.readDocument_ended h, heredoc.document_ended h, KeepsEnded]
  generalize heredoc.logicalLine src = line at *
  change line.text = _ at hpairs
  change _ ↔ (heredoc.isDelimiter (lastPair line.pieces) = heredoc.isDelimiter line.text ∧
    (heredoc.isDelimiter line.text = true → beforeLastPair line.pieces = [])) ∧ _
  cases hpair : heredoc.isDelimiter (lastPair line.pieces) with
  | true =>
    cases hwhole : heredoc.isDelimiter line.text with
    | true => simp
    | false =>
      -- The body that is read stops before the line, and this one does not.
      have hne : (beforeLastPair line.pieces, line.rest) ≠
          (line.text ++ '\n' :: (heredoc.document line.rest).1,
            (heredoc.document line.rest).2) := by
        intro heq
        have hlength := congrArg (List.length ∘ Prod.fst) heq
        rw [hpairs] at hlength
        simp at hlength
      simp [hne]
  | false =>
    cases hwhole : heredoc.isDelimiter line.text with
    | true => simp
    | false => simp [Prod.ext_iff]

theorem document_rest_suffix (src : List Char) : (heredoc.document src).2 <:+ src := by
  induction src using PendingHereDoc.document.induct heredoc with
  | case1 src line hdelimiter =>
    rw [document, if_pos hdelimiter]
    exact heredoc.logicalLine_rest_suffix src
  | case2 src line hdelimiter h hlt body rest heq ih =>
    rw [heredoc.document_ended h, if_neg hdelimiter]
    exact ih.trans (heredoc.logicalLine_rest_suffix src)
  | case3 src line hdelimiter h =>
    rw [heredoc.document_unended (Bool.eq_false_iff.mpr h)]
    exact heredoc.logicalLine_rest_suffix src

theorem readDocument_keeps (src : List Char) :
    heredoc.readDocument src = heredoc.document src ↔
      ∀ line ∈ heredoc.documentLines src, heredoc.KeepsLine line := by
  have hunended : ∀ src, (heredoc.logicalLine src).ended = false →
      (heredoc.readDocument src = heredoc.document src ↔
        heredoc.KeepsLine (heredoc.logicalLine src)) := by
    intro src h
    have hkeeps : heredoc.KeepsLine (heredoc.logicalLine src) ↔
        heredoc.KeepsUnended (heredoc.logicalLine src).pieces := by
      rw [KeepsLine, if_neg (Bool.eq_false_iff.mp h)]
    rw [heredoc.readDocument_unended h, heredoc.document_unended h, Prod.mk.injEq,
      and_iff_left rfl, hkeeps]
    exact heredoc.readUnended_keeps (heredoc.logicalLine_pieces_ne_nil src)
  induction src using PendingHereDoc.documentLines.induct heredoc with
  | case1 src line hdelimiter =>
    rw [documentLines, if_pos hdelimiter]
    simp only [mem_singleton, forall_eq]
    cases h : (heredoc.logicalLine src).ended with
    | true =>
      rw [heredoc.readDocument_line h, KeepsLine, h, if_pos rfl]
      have hfalse : ¬ heredoc.isDelimiter (heredoc.logicalLine src).text = false := by
        rw [hdelimiter]
        decide
      simp [hfalse]
    | false => exact hunended src h
  | case2 src line hdelimiter h hlt ih =>
    have hrest : heredoc.readDocument (heredoc.logicalLine src).rest =
        heredoc.document (heredoc.logicalLine src).rest ↔
          ∀ later ∈ heredoc.documentLines (heredoc.logicalLine src).rest,
            heredoc.KeepsLine later := ih
    rw [documentLines, if_neg hdelimiter, dif_pos h, heredoc.readDocument_line h, hrest,
      forall_mem_cons, KeepsLine, h, if_pos rfl]
    have hfalse : heredoc.isDelimiter (heredoc.logicalLine src).text = false :=
      Bool.eq_false_iff.mpr hdelimiter
    simp [hfalse]
  | case3 src line hdelimiter h =>
    rw [documentLines, if_neg hdelimiter, dif_neg h]
    simp only [mem_singleton, forall_eq]
    exact hunended src (Bool.eq_false_iff.mpr h)

end PendingHereDoc

/-- **A here-document is read by its logical lines** exactly if its joined lines end as
the reader pairs them. -/
theorem heredoc_body_is_the_document (heredoc : PendingHereDoc) (n : Nat) (s : LexerState)
    (hn : s.src.length + 1 < n) :
    readHeredocBody n heredoc s =
        some (.ok (heredoc.document s.src).1, s.readTo (heredoc.document s.src).2) ↔
      ∀ line ∈ heredoc.documentLines s.src, heredoc.KeepsLine line := by
  rw [readHeredocBody, readHeredocLoop_run heredoc [] hn, nil_append,
    ← heredoc.readDocument_keeps s.src]
  constructor
  · intro h
    have hpair := Option.some.inj h
    have hbody := Ending.ok.inj (congrArg Prod.fst hpair)
    have hsrc := congrArg (LexerState.src ∘ Prod.snd) hpair
    dsimp only [Function.comp_apply] at hsrc
    rw [LexerState.src_readTo (heredoc.readDocument_rest_suffix s.src),
      LexerState.src_readTo (heredoc.document_rest_suffix s.src)] at hsrc
    exact Prod.ext hbody hsrc
  · intro h
    rw [h]

theorem heredoc_body_is_the_document_two_lines :
    "a\\\nb\nE\nc".toList.length + 1 < 12 ∧
      (readHeredocBody 12 ⟨strToBytes ['E'], false, false⟩ { src := "a\\\nb\nE\nc".toList }).map
        Prod.fst = some (.ok "ab\n".toList) := by
  have hlen : "a\\\nb\nE\nc".toList.length + 1 < 12 := by decide
  have hkeeps : ∀ line ∈ PendingHereDoc.documentLines ⟨strToBytes ['E'], false, false⟩
      "a\\\nb\nE\nc".toList,
      PendingHereDoc.KeepsLine ⟨strToBytes ['E'], false, false⟩ line := by decide +kernel
  have hbody : (PendingHereDoc.document ⟨strToBytes ['E'], false, false⟩
      "a\\\nb\nE\nc".toList).1 = "ab\n".toList := by decide +kernel
  refine ⟨hlen, ?_⟩
  rw [(heredoc_body_is_the_document ⟨strToBytes ['E'], false, false⟩ 12
    { src := "a\\\nb\nE\nc".toList } hlen).mpr hkeeps, Option.map_some, hbody]

/-- Where three lines are joined, the third one is taken for the delimiter. -/
theorem third_line_ends_heredoc :
    (readHeredocBody 30 ⟨strToBytes ['E'], false, false⟩
        { src := "a\\\nb\\\nE\nc\nE\n".toList }).map Prod.fst ≠
      some (.ok (PendingHereDoc.document ⟨strToBytes ['E'], false, false⟩
        "a\\\nb\\\nE\nc\nE\n".toList).1) := by
  decide +kernel

end Ish.Epsh
