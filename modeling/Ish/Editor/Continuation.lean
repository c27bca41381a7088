import Ish.Epsh.Descriptors
import Ish.Epsh.Units

/-!
# Continuation — when Enter adds a line

The model of `needs_continuation` and `scan_quote_state` in `src/editor.rs`: whether
Enter puts a newline into the line or submits it. The scan knows quotes and
backslashes only, so comments, here-documents and substitutions are words to it.
-/

namespace Ish.Editor

open Ish.Lib Ish.Epsh List

/-- The flags of `scan_quote_state`. -/
structure QuoteState where
  in_single : Bool := false
  in_double : Bool := false
  escape : Bool := false
deriving DecidableEq

/-- One byte of `scan_quote_state`. -/
def QuoteState.next (s : QuoteState) (b : UInt8) : QuoteState :=
  if s.escape then { s with escape := false }
  else if b = 0x5C ∧ s.in_single = false then { s with escape := true }
  else if b = 0x27 ∧ s.in_double = false then { s with in_single := !s.in_single }
  else if b = 0x22 ∧ s.in_single = false then { s with in_double := !s.in_double }
  else s

/-- `scan_quote_state` -/
def scanQuoteState (input : List UInt8) : QuoteState := input.foldl QuoteState.next {}

/-- `str::trim_end` -/
def trimEnd (text : List Char) : List Char := text.rdropWhile Text.isWhitespace

/-- `needs_continuation` -/
def needsContinuation (input : List Char) : Bool :=
  let trimmed := trimEnd input
  if trimmed.isEmpty then false
  else
    let s := scanQuoteState (Utf8.encode input)
    if s.in_single || s.in_double || s.escape then true
    else ['|'].isSuffixOf trimmed || ['&', '&'].isSuffixOf trimmed ||
      ['|', '|'].isSuffixOf trimmed

/-! ## Texts whose quotes are closed -/

/-- What may stand between double quotes: a backslash takes the next character with it. -/
inductive DoubleQuoted : List Char → Prop where
  | nil : DoubleQuoted []
  | char {c : Char} {rest : List Char} (hc : c ≠ '\\' ∧ c ≠ '"') (hrest : DoubleQuoted rest) :
      DoubleQuoted (c :: rest)
  | escaped (c : Char) {rest : List Char} (hrest : DoubleQuoted rest) :
      DoubleQuoted ('\\' :: c :: rest)

/-- Every quote is closed and every backslash takes a character with it, when nothing
else is taken to have a meaning. -/
inductive Paired : List Char → Prop where
  | nil : Paired []
  | char {c : Char} {rest : List Char} (hc : c ≠ '\\' ∧ c ≠ '\'' ∧ c ≠ '"')
      (hrest : Paired rest) : Paired (c :: rest)
  | escaped (c : Char) {rest : List Char} (hrest : Paired rest) : Paired ('\\' :: c :: rest)
  | single {body rest : List Char} (hbody : '\'' ∉ body) (hrest : Paired rest) :
      Paired ('\'' :: (body ++ '\'' :: rest))
  | double {body rest : List Char} (hbody : DoubleQuoted body) (hrest : Paired rest) :
      Paired ('"' :: (body ++ '"' :: rest))

namespace QuoteState

/-! ## One character -/

/-- One character of a text. -/
def nextChar (s : QuoteState) (c : Char) : QuoteState := (String.utf8EncodeChar c).foldl next s

theorem scanQuoteState_encode (text : List Char) :
    scanQuoteState (Utf8.encode text) = text.foldl nextChar {} := by
  rw [scanQuoteState, Utf8.encode, foldl_flatMap]
  rfl

/-- The bytes the scan looks for belong to the characters it looks for. -/
theorem not_mem_encodeChar {c} (hc : c ≠ '\\' ∧ c ≠ '\'' ∧ c ≠ '"') :
    ∀ b ∈ String.utf8EncodeChar c, b ≠ 0x5C ∧ b ≠ 0x27 ∧ b ≠ 0x22 := by
  intro b hb
  refine ⟨?_, ?_, ?_⟩
  · rintro rfl
    exact hc.1 (Utf8.eq_of_ascii_mem (by decide) hb)
  · rintro rfl
    exact hc.2.1 (Utf8.eq_of_ascii_mem (by decide) hb)
  · rintro rfl
    exact hc.2.2 (Utf8.eq_of_ascii_mem (by decide) hb)

theorem foldl_next_plain {s} (hs : s.escape = false) {bytes : List UInt8}
    (h : ∀ b ∈ bytes, b ≠ 0x5C ∧ b ≠ 0x27 ∧ b ≠ 0x22) : bytes.foldl next s = s := by
  induction bytes with
  | nil => rfl
  | cons b bytes ih =>
    obtain ⟨⟨hback, hsingle, hdouble⟩, hbytes⟩ := List.forall_mem_cons.mp h
    have hnext : s.next b = s := by simp [next, hs, hback, hsingle, hdouble]
    rw [List.foldl_cons, hnext]
    exact ih hbytes

theorem nextChar_plain {s : QuoteState} (hs : s.escape = false) {c : Char}
    (hc : c ≠ '\\' ∧ c ≠ '\'' ∧ c ≠ '"') : s.nextChar c = s :=
  foldl_next_plain hs (not_mem_encodeChar hc)

/-- A backslash takes the whole next character with it, though the scan skips one byte. -/
theorem nextChar_escaped {s : QuoteState} (hs : s.escape = true) (c : Char) :
    s.nextChar c = { s with escape := false } := by
  have hnext (b : UInt8) : s.next b = { s with escape := false } := by simp [next, hs]
  by_cases hc : c ≠ '\\' ∧ c ≠ '\'' ∧ c ≠ '"'
  · have hplain := not_mem_encodeChar hc
    rw [nextChar]
    cases hbytes : String.utf8EncodeChar c with
    | nil => exact absurd hbytes String.utf8EncodeChar_ne_nil
    | cons b bytes =>
      rw [List.foldl_cons, hnext]
      rw [hbytes, List.forall_mem_cons] at hplain
      exact foldl_next_plain rfl hplain.2
  · have hone : c = '\\' ∨ c = '\'' ∨ c = '"' := by tauto
    obtain rfl | rfl | rfl := hone <;> exact hnext _

theorem nextChar_backslash (in_double : Bool) :
    nextChar ⟨false, in_double, false⟩ '\\' = ⟨false, in_double, true⟩ := by
  cases in_double <;> rfl

theorem nextChar_single {c : Char} (hc : c ≠ '\'') :
    nextChar ⟨true, false, false⟩ c = ⟨true, false, false⟩ := by
  by_cases hspecial : c = '\\' ∨ c = '"'
  · obtain rfl | rfl := hspecial <;> rfl
  · rw [not_or] at hspecial
    exact nextChar_plain rfl ⟨hspecial.1, hc, hspecial.2⟩

theorem nextChar_double {c : Char} (hc : c ≠ '\\' ∧ c ≠ '"') :
    nextChar ⟨false, true, false⟩ c = ⟨false, true, false⟩ := by
  by_cases hsingle : c = '\''
  · rw [hsingle]
    rfl
  · exact nextChar_plain rfl ⟨hc.1, hsingle, hc.2⟩

/-! ## A whole text -/

theorem foldl_single {body : List Char} (h : '\'' ∉ body) :
    body.foldl nextChar ⟨true, false, false⟩ = ⟨true, false, false⟩ := by
  induction body with
  | nil => rfl
  | cons c body ih =>
    rw [mem_cons, not_or] at h
    rw [foldl_cons, nextChar_single fun hc => h.1 hc.symm]
    exact ih h.2

theorem foldl_double {body : List Char} (h : DoubleQuoted body) :
    body.foldl nextChar ⟨false, true, false⟩ = ⟨false, true, false⟩ := by
  induction h with
  | nil => rfl
  | char hc _ ih => rwa [foldl_cons, nextChar_double hc]
  | escaped c _ ih =>
    rwa [foldl_cons, foldl_cons, nextChar_backslash, nextChar_escaped rfl]

theorem foldl_paired {text : List Char} (h : Paired text) : text.foldl nextChar {} = {} := by
  induction h with
  | nil => rfl
  | char hc _ ih => rwa [foldl_cons, nextChar_plain rfl hc]
  | escaped c _ ih =>
    rwa [foldl_cons, foldl_cons, nextChar_backslash, nextChar_escaped rfl]
  | single hbody _ ih =>
    have hopen : nextChar {} '\'' = ⟨true, false, false⟩ := rfl
    have hclose : nextChar ⟨true, false, false⟩ '\'' = {} := rfl
    rwa [foldl_cons, hopen, foldl_append, foldl_single hbody, foldl_cons, hclose]
  | double hbody _ ih =>
    have hopen : nextChar {} '"' = ⟨false, true, false⟩ := rfl
    have hclose : nextChar ⟨false, true, false⟩ '"' = {} := rfl
    rwa [foldl_cons, hopen, foldl_append, foldl_double hbody, foldl_cons, hclose]

theorem closes_single {text} (h : text.foldl nextChar ⟨true, false, false⟩ = {}) :
    ∃ body rest, '\'' ∉ body ∧ text = body ++ '\'' :: rest ∧ rest.foldl nextChar {} = {} := by
  induction text with
  | nil => cases h
  | cons c text ih =>
    by_cases hc : c = '\''
    · subst hc
      exact ⟨[], text, not_mem_nil, rfl, h⟩
    · rw [foldl_cons, nextChar_single hc] at h
      obtain ⟨body, rest, hbody, rfl, hrest⟩ := ih h
      exact ⟨c :: body, rest, by simp [Ne.symm hc, hbody], rfl, hrest⟩

theorem closes_double (text : List Char) (h : text.foldl nextChar ⟨false, true, false⟩ = {}) :
    ∃ body rest, DoubleQuoted body ∧ text = body ++ '"' :: rest ∧
      rest.foldl nextChar {} = {} := by
  match text with
  | [] => cases h
  | c :: text =>
    by_cases hback : c = '\\'
    · subst hback
      rw [List.foldl_cons, nextChar_backslash] at h
      match text with
      | [] => cases h
      | c :: text =>
        rw [List.foldl_cons, nextChar_escaped rfl] at h
        obtain ⟨body, rest, hbody, rfl, hrest⟩ := closes_double text h
        exact ⟨'\\' :: c :: body, rest, .escaped c hbody, rfl, hrest⟩
    · by_cases hquote : c = '"'
      · subst hquote
        exact ⟨[], text, .nil, rfl, h⟩
      · rw [foldl_cons, nextChar_double ⟨hback, hquote⟩] at h
        obtain ⟨body, rest, hbody, rfl, hrest⟩ := closes_double text h
        exact ⟨c :: body, rest, .char ⟨hback, hquote⟩ hbody, rfl, hrest⟩

/-- By induction on a bound of the length, since a quoted text is taken at once. -/
theorem paired_of_foldl_le (n : Nat) : ∀ text : List Char, text.length ≤ n →
    text.foldl nextChar {} = {} → Paired text := by
  induction n with
  | zero =>
    intro text hlen _
    rw [length_eq_zero_iff.mp (Nat.le_zero.mp hlen)]
    exact .nil
  | succ n ih =>
    intro text hlen h
    cases text with
    | nil => exact .nil
    | cons c text =>
      rw [length_cons, Nat.succ_le_succ_iff] at hlen
      by_cases hback : c = '\\'
      · subst hback
        rw [foldl_cons, nextChar_backslash] at h
        cases text with
        | nil => cases h
        | cons c text =>
          rw [foldl_cons, nextChar_escaped rfl] at h
          exact .escaped c (ih text (Nat.le_of_succ_le hlen) h)
      · by_cases hsingle : c = '\''
        · subst hsingle
          obtain ⟨body, rest, hbody, rfl, hrest⟩ := closes_single h
          rw [length_append, length_cons] at hlen
          exact .single hbody (ih rest (by omega) hrest)
        · by_cases hdouble : c = '"'
          · subst hdouble
            obtain ⟨body, rest, hbody, rfl, hrest⟩ := closes_double text h
            rw [List.length_append, List.length_cons] at hlen
            exact .double hbody (ih rest (by omega) hrest)
          · rw [List.foldl_cons, nextChar_plain rfl ⟨hback, hsingle, hdouble⟩] at h
            exact .char ⟨hback, hsingle, hdouble⟩ (ih text hlen h)

theorem paired_of_foldl {text} (h : text.foldl nextChar {} = {}) : Paired text :=
  paired_of_foldl_le text.length text le_rfl h

end QuoteState

/-- The scan ends outside of quotes and escapes exactly for texts that close theirs. -/
theorem scanQuoteState_eq_iff (input : List Char) :
    scanQuoteState (Utf8.encode input) = {} ↔ Paired input := by
  rw [QuoteState.scanQuoteState_encode]
  exact ⟨QuoteState.paired_of_foldl, QuoteState.foldl_paired⟩

/-! ## Lines that are submitted -/

/-- A trimmed line ends in an operator that needs another command. -/
def EndsInOperator (trimmed : List Char) : Prop :=
  ['|'] <:+ trimmed ∨ ['&', '&'] <:+ trimmed

theorem endsInOperator_iff (trimmed : List Char) :
    (['|'].isSuffixOf trimmed || ['&', '&'].isSuffixOf trimmed ||
      ['|', '|'].isSuffixOf trimmed) = true ↔ EndsInOperator trimmed := by
  have hpipes : ['|', '|'] <:+ trimmed → ['|'] <:+ trimmed := (List.suffix_cons '|' ['|']).trans
  simp only [Bool.or_eq_true, List.isSuffixOf_iff_suffix, EndsInOperator]
  tauto

/-- **Enter submits a line exactly if it is blank, or its quotes are closed and it does not
end in an operator**, comments, here-documents and substitutions being read as words. -/
theorem needsContinuation_eq_false_iff (input : List Char) :
    needsContinuation input = false ↔
      trimEnd input = [] ∨ (Paired input ∧ ¬ EndsInOperator (trimEnd input)) := by
  have hstate (s : QuoteState) : (s.in_single || s.in_double || s.escape) = false ↔ s = {} := by
    obtain ⟨in_single, in_double, escape⟩ := s
    cases in_single <;> cases in_double <;> cases escape <;> simp
  rw [← scanQuoteState_eq_iff, ← hstate, ← endsInOperator_iff, needsContinuation]
  cases htrimmed : trimEnd input with
  | nil => simp
  | cons c trimmed =>
    dsimp only
    rw [if_neg (by simp)]
    split_ifs with hopen
    · simp [hopen]
    · rw [Bool.not_eq_true] at hopen
      rw [hopen, ← Bool.not_eq_true]
      simp

/-- A whole command whose comment has an apostrophe is held back, and so is one that
ends in an escaped operator. -/
theorem whole_command_held_back : ∃ program s program' s',
    Parser.parse .plain 40 (.newBytes (Utf8.encode "ls # what's here".toList)) =
        some (.ok program, s) ∧
      Parser.parse .plain 40 (.newBytes (Utf8.encode "ls \\|".toList)) =
        some (.ok program', s') ∧
      needsContinuation "ls # what's here".toList = true ∧
      needsContinuation "ls \\|".toList = true := by
  have hparsed (text : List Char)
      (h : ((Parser.parse .plain 40 (.newBytes (Utf8.encode text))).any fun r =>
        match r.1 with | .ok _ => true | _ => false) = true) :
      ∃ program s, Parser.parse .plain 40 (.newBytes (Utf8.encode text)) =
        some (.ok program, s) := by
    cases hrun : Parser.parse .plain 40 (.newBytes (Utf8.encode text)) with
    | none => rw [hrun] at h; cases h
    | some r =>
      obtain ⟨ending, s⟩ := r
      rw [hrun] at h
      cases ending with
      | ok program => exact ⟨program, s, rfl⟩
      | error e => cases h
      | quit q => cases h
  obtain ⟨program, s, hcomment⟩ := hparsed "ls # what's here".toList (by decide +kernel)
  obtain ⟨program', s', hescaped⟩ := hparsed "ls \\|".toList (by decide +kernel)
  exact ⟨program, s, program', s', hcomment, hescaped, by decide, by decide⟩

end Ish.Editor
