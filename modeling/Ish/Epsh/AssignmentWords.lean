import Ish.Epsh.Descriptors
import Ish.Epsh.Places

/-!
# Words that look like assignments

A word `name=value` that stands where the grammar asks for a word, beside the same word
with its `=` quoted. The lexer makes an assignment of the first and the same parts of the
second; of the places for a word only the arguments of a command take both.
-/

namespace Ish.Epsh

open Ish.Lib List
open Process (Mirrors Repeats Returns bind_eq_ok bind_ok)

/-! ## The quoted word -/

/-- The source with a backslash in front of its first `=`. -/
def quoteEquals : List Char → List Char
  | [] => []
  | c :: src => if c = '=' then '\\' :: c :: src else c :: quoteEquals src

def LexerState.quoted (s : LexerState) : LexerState := { s with src := quoteEquals s.src }

variable {c : Char}

theorem quoteEquals_cons (hc : c ≠ '=') (src : List Char) :
    quoteEquals (c :: src) = c :: quoteEquals src := if_neg hc

theorem head_quoteEquals (h : src.head? ≠ some '=') :
    (quoteEquals src).head? = src.head? := by
  cases src with
  | nil => rfl
  | cons c src =>
    have hc : c ≠ '=' := fun hc => h (congrArg some hc)
    rw [quoteEquals_cons hc]
    rfl

theorem head_quoteEquals_of (h : src.head? = some '=') :
    (quoteEquals src).head? = some '\\' := by
  obtain ⟨src, rfl⟩ := head?_eq_some_iff.mp h
  rfl

theorem atContinuation_quoteEquals (h : atContinuation src = false) :
    atContinuation (quoteEquals src) = false := by
  cases src with
  | nil => rfl
  | cons c src =>
    rw [quoteEquals]
    split
    · rename_i hc
      rw [hc]
      rfl
    · refine atContinuation_cons fun hc hnext => ?_
      rw [hc] at h
      cases src with
      | nil => cases hnext
      | cons d src =>
        rw [quoteEquals] at hnext
        split at hnext
        · cases hnext
        · cases hnext
          cases h

namespace LexerState

/-- The two sources are read alike up to the `=`. -/
theorem advanced_quoted {s : LexerState} (h : s.src.head? ≠ some '=') :
    s.quoted.advanced = s.advanced.quoted := by
  cases hsrc : s.src with
  | nil =>
    have hs : s.quoted = s := by rw [quoted, hsrc, quoteEquals, ← hsrc]
    have hadvanced : s.advanced = s := by rw [advanced, hsrc]
    rw [hs, hadvanced, hs]
  | cons c src =>
    have hc : c ≠ '=' := fun hc => h (by rw [hsrc, hc]; rfl)
    have hquoted : s.quoted.src = c :: quoteEquals src := by
      rw [quoted, hsrc, quoteEquals_cons hc]
    unfold advanced
    rw [hquoted, hsrc]
    dsimp only
    rw [show s.quoted.encoding_prefix = s.encoding_prefix from rfl]
    split_ifs <;> rfl

theorem skipContinuations_quoted {s : LexerState} (src : List Char) (hs : s.src = src) :
    skipContinuations (quoteEquals src) s.quoted = (skipContinuations src s).quoted := by
  induction src, s using skipContinuations.induct with
  | case1 src s ih =>
    have hsrc : s.advanced.advanced.src = src := by rw [src_advanced, src_advanced, hs]; rfl
    have hfirst : s.src.head? ≠ some '=' := by rw [hs]; rintro ⟨⟩
    have hsecond : s.advanced.src.head? ≠ some '=' := by rw [src_advanced, hs]; rintro ⟨⟩
    rw [quoteEquals_cons (by decide), quoteEquals_cons (by decide), skipContinuations,
      skipContinuations, advanced_quoted hfirst, advanced_quoted hsecond, ih hsrc]
  | case2 src s h =>
    rw [skipContinuations.eq_2 src s h, skipContinuations.eq_2]
    intro rest hrest
    have hnone : atContinuation src = false := by
      unfold atContinuation
      split
      · exact (h _ rfl).elim
      · rfl
    have hquoted := atContinuation_quoteEquals hnone
    rw [hrest] at hquoted
    cases hquoted

theorem atChar_quoted (s : LexerState) : s.quoted.atChar = s.atChar.quoted :=
  skipContinuations_quoted s.src rfl

end LexerState

/-! ## In front of the word -/

/-- A look at the next character, where no continuation is next. -/
theorem peekChar_eq (h : atContinuation s.src = false) :
    peekChar s = some (.ok s.src.head?, s) := by
  change some (Ending.ok s.atChar.src.head?, s.atChar) = _
  rw [atChar_eq h]

theorem peekChar_cases {s u next}
    (h : peekChar s = some (.ok next, u)) :
    u = s.atChar ∧ next = u.src.head? ∧ atContinuation u.src = false := by
  cases h
  exact ⟨rfl, rfl, atContinuation_skipContinuations s.src s rfl⟩

theorem peekChar_quoted {s u next}
    (h : peekChar s = some (.ok next, u)) :
    peekChar s.quoted = some (.ok u.quoted.src.head?, u.quoted) := by
  obtain ⟨rfl, -, -⟩ := peekChar_cases h
  rw [← LexerState.atChar_quoted]
  rfl

theorem skipChar_eq (h : atContinuation s.src = false)
    (hnext : s.src.head? = some c) : skipChar s = some (.ok (), s.advanced) := by
  have hadvance : advance s = some (.ok (some c), s.advanced) := by
    rw [advance, bind_ok (peekChar_eq h), hnext]
    change some (Ending.ok s.src.head?, s.advanced) = _
    rw [hnext]
  exact bind_ok hadvance

theorem skipChar_quoted {s : LexerState} (h : atContinuation s.src = false)
    (hnext : s.src.head? = some c) (hc : c ≠ '=') :
    skipChar s.quoted = some (.ok (), s.advanced.quoted) := by
  have hne : s.src.head? ≠ some '=' := fun heq => hc (Option.some.inj (hnext.symm.trans heq))
  rw [← LexerState.advanced_quoted hne]
  refine skipChar_eq (c := c) (atContinuation_quoteEquals h) ?_
  exact (head_quoteEquals hne).trans hnext

/-- The end of a line or of the source. -/
def AtLineEnd (src : List Char) : Prop := src.head? = none ∨ src.head? = some '\n'

variable {s t : LexerState} {n : Nat}

theorem skipComment_lineEnd
    (h : skipComment n s = some (.ok (), t)) : AtLineEnd t.src := by
  induction n generalizing s with
  | zero => cases h
  | succ n ih =>
    unfold skipComment at h
    obtain ⟨next, u, hpeek, h⟩ := bind_eq_ok h
    obtain ⟨hnext, rfl⟩ : s.src.head? = next ∧ s = u := by cases hpeek; exact ⟨rfl, rfl⟩
    split at h
    · cases h
      exact .inl hnext
    · cases h
      exact .inr hnext
    · obtain ⟨_, v, -, h⟩ := bind_eq_ok h
      exact ih h

theorem skipBlanks_lineEnd (hs : AtLineEnd s.src)
    (h : skipBlanks n s = some (.ok (), t)) : AtLineEnd t.src := by
  have hcontinuation : atContinuation s.src = false := by
    cases hsrc : s.src with
    | nil => rfl
    | cons c src =>
      refine atContinuation_cons ?_
      rintro rfl
      rw [hsrc] at hs
      rcases hs with h | h <;> cases h
  cases n with
  | zero => cases h
  | succ n =>
    unfold skipBlanks at h
    rw [bind_ok (peekChar_eq hcontinuation)] at h
    rcases hs with hs | hs
    · rw [hs] at h
      cases h
      exact .inl hs
    · rw [hs] at h
      cases h
      exact .inr hs

theorem isShellText_skipContinuations (src : List Char) (s : LexerState) (hs : s.src = src)
    (h : IsShellText src) : IsShellText (LexerState.skipContinuations src s).src := by
  induction src, s using LexerState.skipContinuations.induct with
  | case1 src s ih =>
    rw [LexerState.skipContinuations]
    refine ih (by rw [src_advanced, src_advanced, hs]; rfl) ?_
    rcases h.uncons with ⟨-, h⟩ | ⟨h, -⟩
    · rcases h.uncons with ⟨-, h⟩ | ⟨h, -⟩
      · exact h
      · exact absurd h (by decide)
    · exact absurd h (by decide)
  | case2 src s hsrc =>
    rw [LexerState.skipContinuations]
    · rwa [hs]
    · exact hsrc

/-- Blanks in front of a word are read alike. -/
theorem skipBlanks_quoted
    (h : skipBlanks n s = some (.ok (), t)) (ht : ¬ AtLineEnd t.src) (hs : IsShellText s.src) :
    skipBlanks n s.quoted = some (.ok (), t.quoted) ∧ IsShellText t.src := by
  induction n generalizing s with
  | zero => cases h
  | succ n ih =>
    unfold skipBlanks at h ⊢
    obtain ⟨next, u, hpeek, h⟩ := bind_eq_ok h
    rw [bind_ok (peekChar_quoted hpeek)]
    obtain ⟨hu, hnext, hcontinuation⟩ := peekChar_cases hpeek
    have htext : IsShellText u.src := by
      rw [hu]
      exact isShellText_skipContinuations s.src s rfl hs
    have hblank {c : Char} (hc : c ≠ '=' ∧ c ≠ ESCAPE) (hu : u.src.head? = some c)
        (h : (skipChar >>= fun _ => skipBlanks n) u = some (.ok (), t)) :
        (skipChar >>= fun _ => skipBlanks n) u.quoted = some (.ok (), t.quoted) ∧
          IsShellText t.src := by
      rw [bind_ok (skipChar_eq hcontinuation hu)] at h
      rw [bind_ok (skipChar_quoted hcontinuation hu hc.1)]
      refine ih h ?_
      obtain ⟨src, hsrc⟩ := head?_eq_some_iff.mp hu
      rw [hsrc] at htext
      rcases htext.uncons with ⟨-, htail⟩ | ⟨hescape, -⟩
      · rwa [src_advanced, hsrc]
      · exact absurd hescape hc.2
    split at h
    · rw [show u.quoted.src.head? = some ' ' from
        (head_quoteEquals (by rw [← hnext]; decide)).trans hnext.symm]
      exact hblank (by decide) hnext.symm h
    · rw [show u.quoted.src.head? = some '\t' from
        (head_quoteEquals (by rw [← hnext]; decide)).trans hnext.symm]
      exact hblank (by decide) hnext.symm h
    · obtain ⟨_, v, hcomment, h⟩ := bind_eq_ok h
      exact absurd (skipBlanks_lineEnd (skipComment_lineEnd hcomment) h) ht
    · rename_i hspace htab hhash
      cases h
      refine ⟨?_, htext⟩
      by_cases hequals : t.src.head? = some '='
      · rw [show t.quoted.src.head? = some '\\' from head_quoteEquals_of hequals]
        rfl
      · rw [show t.quoted.src.head? = next from (head_quoteEquals hequals).trans hnext.symm]
        split
        · exact absurd rfl hspace
        · exact absurd rfl htab
        · exact absurd rfl hhash
        · rfl

theorem tryOperator_quoted (hcontinuation : atContinuation s.src = false)
    (h : tryOperator s = some (.ok none, t)) :
    t = s ∧ tryOperator s.quoted = some (.ok none, s.quoted) := by
  have hone {x : LexM Token} : ∀ u, (skipChar >>= fun _ => some <$> x) u ≠ some (.ok none, t) := by
    intro u hu
    obtain ⟨_, v, -, hu⟩ := bind_eq_ok hu
    rw [map_eq_pure_bind] at hu
    obtain ⟨token, w, -, hu⟩ := bind_eq_ok hu
    cases hu
  unfold tryOperator at h ⊢
  rw [bind_ok (peekChar_eq hcontinuation)] at h
  rw [bind_ok (peekChar_eq (atContinuation_quoteEquals hcontinuation))]
  generalize hnext : s.src.head? = next at h
  split at h
  · exact absurd h (hone s)
  · exact absurd h (hone s)
  · exact absurd h (hone s)
  · obtain ⟨_, v, -, h⟩ := bind_eq_ok h
    cases h
  · obtain ⟨_, v, -, h⟩ := bind_eq_ok h
    cases h
  · exact absurd h (hone s)
  · exact absurd h (hone s)
  · rename_i h1 h2 h3 h4 h5 h6 h7
    cases h
    refine ⟨rfl, ?_⟩
    by_cases hequals : s.src.head? = some '='
    · rw [show s.quoted.src.head? = some '\\' from head_quoteEquals_of hequals]
      rfl
    · rw [show s.quoted.src.head? = next from (head_quoteEquals hequals).trans hnext]
      split
      · exact absurd rfl h1
      · exact absurd rfl h2
      · exact absurd rfl h3
      · exact absurd rfl h4
      · exact absurd rfl h5
      · exact absurd rfl h6
      · exact absurd rfl h7
      · rfl

/-! ## Behind the `=` -/

variable {text : Text}

theorem strToBytes_ne_nil (h : text ≠ []) : strToBytes text ≠ [] := by
  have hchar (c : Char) : String.utf8EncodeChar c ≠ [] := by
    intro hnil
    have hlen := congrArg List.length hnil
    rw [String.length_utf8EncodeChar] at hlen
    exact absurd c.utf8Size_pos (by rw [hlen]; decide)
  induction text using strToBytes.induct with
  | case1 => exact absurd rfl h
  | case2 c hc =>
    rw [strToBytes, if_pos hc]
    exact hchar ESCAPE
  | case3 c hc literal chars ih =>
    rw [strToBytes, if_pos hc]
    exact fun hnil => hchar literal (append_eq_nil_iff.mp hnil).1
  | case4 c chars hc hraw ih =>
    rw [strToBytes_cons (by simpa using hc), if_pos hraw]
    rintro ⟨⟩
  | case5 c chars hc hraw ih =>
    rw [strToBytes_cons (by simpa using hc), if_neg hraw]
    exact fun hnil => hchar c (append_eq_nil_iff.mp hnil).1

theorem WordAcc.flush_eq (acc : WordAcc) :
    acc.flush = { acc with parts := acc.parts ++ plainParts acc.literal, literal := [] } := by
  unfold WordAcc.flush plainParts
  cases hliteral : acc.literal with
  | nil =>
    simp only [isEmpty_nil, if_true, append_nil]
    rw [← hliteral]
  | cons c literal => rfl

/-- The parts of a word whose `=` is quoted. -/
def quotedParts (name : ShellBytes) (value : List WordPart) : List WordPart :=
  .Literal name :: .DoubleQuoted [.Literal [0x3D]] :: value

/-- Two words read alike, behind `name=` and behind `name\=`. -/
inductive Alongside (name : Text) : WordAcc → WordAcc → Prop where
  | literal (text : Text) (had_quoting : Bool) (brace_depth : Nat) :
      Alongside name
        { parts := [], literal := name ++ '=' :: text, had_quoting, brace_depth }
        { parts := quotedParts (strToBytes name) [], literal := text, had_quoting := true,
          brace_depth }
  | parts (value : Text) {parts : List WordPart} (hparts : ∀ part ∈ parts, part ≠ .Literal [])
      (literal : Text) (had_quoting : Bool) (brace_depth : Nat) :
      Alongside name
        { parts := .Literal (strToBytes (name ++ '=' :: value)) :: parts, literal, had_quoting,
          brace_depth }
        { parts := quotedParts (strToBytes name) (plainParts value ++ parts), literal,
          had_quoting := true, brace_depth }

namespace Alongside

variable {name : Text} {acc acc' : WordAcc}

theorem push (h : Alongside name acc acc') (c : Char) :
    Alongside name (acc.push c) (acc'.push c) := by
  cases h with
  | literal text had_quoting brace_depth =>
    rw [WordAcc.push, WordAcc.push, append_assoc]
    exact .literal (text ++ [c]) had_quoting brace_depth
  | parts value hparts literal had_quoting brace_depth =>
    exact .parts value hparts (literal ++ [c]) had_quoting brace_depth

theorem quoting (h : Alongside name acc acc') : Alongside name acc.quoting acc'.quoting := by
  cases h with
  | literal text _ brace_depth => exact .literal text true brace_depth
  | parts value hparts literal _ brace_depth => exact .parts value hparts literal true brace_depth

theorem plainParts_ne : ∀ part ∈ plainParts text, part ≠ .Literal [] := by
  intro part hpart
  rw [plainParts] at hpart
  split at hpart
  · cases hpart
  · rename_i htext
    rw [mem_singleton.mp hpart]
    intro hnil
    cases hbytes : strToBytes text with
    | nil => exact strToBytes_ne_nil (by simpa using htext) hbytes
    | cons b bytes =>
      rw [hbytes] at hnil
      cases hnil

/-- The words without literal text in hand. -/
theorem flush (h : Alongside name acc acc') :
    ∃ value parts, (∀ part ∈ parts, part ≠ WordPart.Literal []) ∧
      acc.flush = { acc with
        parts := .Literal (strToBytes (name ++ '=' :: value)) :: parts, literal := [] } ∧
      acc'.flush = { acc' with
        parts := quotedParts (strToBytes name) (plainParts value ++ parts), literal := [] } ∧
      acc'.had_quoting = true ∧ acc'.brace_depth = acc.brace_depth := by
  rw [WordAcc.flush_eq, WordAcc.flush_eq]
  cases h with
  | literal text had_quoting brace_depth =>
    refine ⟨text, [], nofun, ?_, ?_, rfl, rfl⟩
    · have hplain : plainParts (name ++ '=' :: text) =
          [.Literal (strToBytes (name ++ '=' :: text))] := if_neg (by simp)
      simp only [hplain, nil_append]
    · simp only [quotedParts, append_nil, cons_append, nil_append]
  | @parts value parts hparts literal had_quoting brace_depth =>
    refine ⟨value, parts ++ plainParts literal, ?_, rfl, ?_, rfl, rfl⟩
    · intro part hpart
      rcases mem_append.mp hpart with hpart | hpart
      · exact hparts part hpart
      · exact plainParts_ne part hpart
    · simp only [quotedParts, append_assoc, cons_append]

theorem flush_push (h : Alongside name acc acc') (c : Char) :
    Alongside name (acc.flush.push c) (acc'.flush.push c) := by
  obtain ⟨value, parts, hparts, hflush, hflush', hquoting, hdepth⟩ := h.flush
  rw [hflush, hflush', WordAcc.push, WordAcc.push]
  simp only [hquoting, hdepth]
  exact .parts value hparts [c] acc.had_quoting acc.brace_depth

theorem flush_add (h : Alongside name acc acc') {part} (hpart : part ≠ .Literal []) :
    Alongside name (acc.flush.add part) (acc'.flush.add part) := by
  obtain ⟨value, parts, hparts, hflush, hflush', hquoting, hdepth⟩ := h.flush
  rw [hflush, hflush', WordAcc.add, WordAcc.add]
  simp only [hquoting, hdepth, quotedParts, cons_append, append_assoc]
  refine .parts value ?_ [] acc.had_quoting acc.brace_depth
  intro other hother
  rcases mem_append.mp hother with hother | hother
  · exact hparts other hother
  · rw [mem_singleton.mp hother]
    exact hpart

theorem isBlank (h : Alongside name acc acc') : acc.isBlank = false ∧ acc'.isBlank = false := by
  cases h with
  | literal text => exact ⟨by simp [WordAcc.isBlank], rfl⟩
  | parts value => exact ⟨rfl, rfl⟩

end Alongside

section

variable (nested : Nested) (span : Span) {name : Text} {acc acc' : WordAcc}

/-- A character that only stands for itself outside quotes. -/
def isPlainChar (c : Char) : Bool :=
  !(c == '"' || c == '\'' || c == '\\' || c == '$' || c == '`')

theorem special_of_not_plain (h : isPlainChar c = false) :
    c = '"' ∨ c = '\'' ∨ c = '\\' ∨ c = '$' ∨ c = '`' := by
  by_contra hnot
  simp only [not_or] at hnot
  simp [isPlainChar, hnot] at h

theorem readWordPart_plain (n : Nat) (acc : WordAcc)
    (hc : isPlainChar c = true) :
    readWordPart nested span ctx in_dquote (n + 1) acc c = (do
      skipChar
      if c = '~' ∧ ctx = .Word ∧ !in_dquote ∧ acc.isBlank then
        let user ← takeChars (fun c => !endsUser c) n []
        return acc.add (.Tilde (strToBytes user))
      else return acc.push c) := by
  unfold readWordPart
  split
  · rename_i heq
    cases heq
  · cases hc
  · cases hc
  · cases hc
  · cases hc
  · cases hc
  · rename_i hn _ _ _ _ _
    obtain rfl := Nat.succ.inj hn
    rfl

theorem mirrors_readEscape (h : Alongside name acc acc') :
    Mirrors SameText (Alongside name) (readEscape .Word acc) (readEscape .Word acc') := by
  unfold readEscape
  refine reader_advance.placeless.mirrors fun next => ?_
  cases next with
  | none => exact .pure h
  | some escaped =>
    refine .ite Iff.rfl (fun h => nomatch h) fun _ => ?_
    have hadd (literal : Option Char) : Mirrors SameText (Alongside name)
        (pure (acc.flush.add (.DoubleQuoted [.Literal (strToBytes (escaped :: literal.toList))])))
        (pure (acc'.flush.add
          (.DoubleQuoted [.Literal (strToBytes (escaped :: literal.toList))])) : LexM WordAcc) :=
      .pure (h.flush_add nofun)
    refine .ite Iff.rfl (fun _ => ?_) fun _ => hadd none
    exact reader_advance.placeless.mirrors hadd

theorem mirrors_readWordPart (n : Nat) (c : Char) (h : Alongside name acc acc') :
    Mirrors SameText (Alongside name) (readWordPart nested span .Word false n acc c)
      (readWordPart nested span .Word false n acc' c) := by
  cases n with
  | zero => exact .diverge _
  | succ n =>
    cases hplain : isPlainChar c with
    | true =>
      have hblank (acc : WordAcc) (hacc : acc.isBlank = false) :
          ¬ (c = '~' ∧ WordCtx.Word = .Word ∧ (!false) = true ∧ acc.isBlank = true) := by
        rintro ⟨-, -, -, hblank⟩
        rw [hacc] at hblank
        cases hblank
      rw [readWordPart_plain nested span n acc hplain,
        readWordPart_plain nested span n acc' hplain, if_neg (hblank acc h.isBlank.1),
        if_neg (hblank acc' h.isBlank.2)]
      exact reader_skipChar.placeless.mirrors fun _ => .pure (h.push c)
    | false =>
      rcases special_of_not_plain hplain with rfl | rfl | rfl | rfl | rfl
      · refine reader_skipChar.placeless.mirrors fun _ =>
          (reader_words nested span n).dquote.placeless.mirrors fun inner => ?_
        have hadd := @Alongside.flush_add name acc acc' h (.DoubleQuoted inner) nofun
        exact .pure hadd.quoting
      · refine placeless_advanceRaw.mirrors fun _ =>
          (reader_readSingleQuoted span n []).placeless.mirrors fun content => ?_
        have hadd := @Alongside.flush_add name acc acc' h (.SingleQuoted (strToBytes content)) nofun
        exact .pure hadd.quoting
      · exact reader_skipChar.placeless.mirrors fun _ => mirrors_readEscape h.quoting
      · refine reader_skipChar.placeless.mirrors fun _ =>
          ((reader_words nested span n).dollar false).placeless.returning
            (returns_readDollar nested span false n) fun part hexpansion => ?_
        cases part with
        | none => exact .pure (h.flush_push '$')
        | some part => exact .pure (h.flush_add ((hexpansion part rfl).ne_literal []))
      · exact reader_skipChar.placeless.mirrors fun _ =>
          (reader_readBacktickPart nested span n).placeless.returning
            (returns_readBacktickPart nested span n) fun part hexpansion =>
              .pure (h.flush_add (hexpansion.ne_literal []))

/-- Behind the `=` the two words are read alike. -/
theorem mirrors_readWordLoop (n : Nat) (h : Alongside name acc acc') :
    Mirrors SameText (fun r r' => ∃ acc acc', Alongside name acc acc' ∧ r = acc.result ∧
        r' = acc'.result)
      (readWordLoop nested span .Word false n acc) (readWordLoop nested span .Word false n acc') := by
  induction n generalizing acc acc' with
  | zero => exact .diverge _
  | succ n ih =>
    unfold readWordLoop
    refine placeless_peekChar.mirrors fun next => ?_
    cases next with
    | none =>
      exact .ite Iff.rfl (fun h => by cases h) fun _ => .pure ⟨acc, acc', h, rfl, rfl⟩
    | some c =>
      have hends : endsWord .Word false acc c = true ↔ endsWord .Word false acc' c = true := by
        simp only [endsWord, h.isBlank.1, h.isBlank.2]
      refine .ite hends (fun _ => .pure ⟨acc, acc', h, rfl, rfl⟩) fun _ => ?_
      refine .ite Iff.rfl (fun h => by cases h.1) fun _ => ?_
      exact Mirrors.bind (mirrors_readWordPart nested span n c h) fun _ _ h => ih h

end

/-! ## The parts of the two words -/

theorem strToBytes_append_plain (h : ESCAPE ∉ text) (rest : Text) :
    strToBytes (text ++ rest) = strToBytes text ++ strToBytes rest := by
  induction text with
  | nil => rfl
  | cons c text ih =>
    rw [mem_cons, not_or] at h
    have hc : (c == ESCAPE) = false := beq_eq_false_iff_ne.mpr (Ne.symm h.1)
    rw [cons_append, strToBytes_cons hc, strToBytes_cons hc, ih h.2]
    split
    · rfl
    · rw [append_assoc]

/-- Text without `=` has no byte that is one. -/
theorem not_mem_strToBytes (hescape : ESCAPE ∉ text) (h : '=' ∉ text) : 0x3D ∉ strToBytes text := by
  induction text with
  | nil => exact nofun
  | cons c text ih =>
    rw [mem_cons, not_or] at hescape h
    have hc : (c == ESCAPE) = false := beq_eq_false_iff_ne.mpr (Ne.symm hescape.1)
    rw [strToBytes_cons hc]
    split
    · rename_i hraw
      rw [mem_append, mem_singleton, not_or]
      refine ⟨fun hbyte => ?_, ih hescape.2 h.2⟩
      simp only [isRawMark, Bool.and_eq_true, decide_eq_true_eq] at hraw
      have hnat := congrArg UInt8.toNat hbyte
      rw [UInt8.toNat_ofNat'] at hnat
      simp only [PUA_BASE] at hraw hnat
      have : (0x3D : UInt8).toNat = 61 := rfl
      omega
    · rw [mem_append, not_or]
      refine ⟨fun hmem => h.1 ?_, ih hescape.2 h.2⟩
      exact (Utf8.eq_of_ascii_mem (by decide) hmem).symm

theorem coalesceFrom_part {part} (h : ∀ s, part ≠ .Literal s) (parts : List WordPart) :
    coalesceFrom part parts = part :: coalesceLiterals parts := by
  cases parts with
  | nil => rfl
  | cons next parts =>
    rw [coalesceFrom, coalesceLiterals]
    exact fun s _ heq => absurd heq (h s)

theorem coalesceFrom_literal (parts : List WordPart) :
    ∃ joined rest, (∀ s, coalesceFrom (.Literal s) parts = .Literal (s ++ joined) :: rest) ∧
      ((∀ part ∈ parts, part ≠ .Literal []) → coalesceLiterals parts =
        (if joined.isEmpty then [] else [.Literal joined]) ++ rest) := by
  induction parts with
  | nil => exact ⟨[], [], fun s => by rw [coalesceFrom, append_nil], fun _ => rfl⟩
  | cons part parts ih =>
    obtain ⟨joined, rest, hjoined, -⟩ := ih
    by_cases hliteral : ∃ s, part = .Literal s
    · obtain ⟨s, rfl⟩ := hliteral
      refine ⟨s ++ joined, rest, fun a => ?_, fun hparts => ?_⟩
      · rw [coalesceFrom, hjoined, append_assoc]
      · have hs : s ≠ [] := by
          rintro rfl
          exact hparts _ mem_cons_self rfl
        rw [coalesceLiterals, hjoined, if_neg (by simp [hs])]
        rfl
    · have hpart : ∀ s, part ≠ .Literal s := fun s heq => hliteral ⟨s, heq⟩
      refine ⟨[], coalesceFrom part parts, fun a => ?_, fun _ => rfl⟩
      rw [coalesceFrom, append_nil]
      exact fun _ s _ heq => hpart s heq

theorem trySplitAssignment_literal {before after : ShellBytes} (h : 0x3D ∉ before)
    (rest : List WordPart) :
    trySplitAssignment (.Literal (before ++ 0x3D :: after) :: rest) =
      (asUtf8Str before).bind fun name =>
        if isName name then some (name, (if after.isEmpty then [] else [.Literal after]) ++ rest)
        else none := by
  have hall : ∀ b ∈ before, (b != 0x3D) = true := by
    intro b hb
    refine bne_iff_ne.mpr fun heq => h ?_
    rwa [← heq]
  have htake : (before ++ 0x3D :: after).takeWhile (· != 0x3D) = before := by
    rw [takeWhile_append_of_pos hall, takeWhile_cons]
    exact append_nil before
  have hdrop : (before ++ 0x3D :: after).dropWhile (· != 0x3D) = 0x3D :: after := by
    rw [dropWhile_append_of_pos hall, dropWhile_cons]
    rfl
  have hcontains : (before ++ 0x3D :: after).contains 0x3D = true := by simp
  rw [trySplitAssignment, if_pos hcontains, htake, hdrop, tail_cons]
  cases asUtf8Str before <;> rfl

variable {value : List WordPart} {name : Text}

/-- **The words** behind `name=` and `name\=` have the same value. -/
theorem Alongside.result_eq (h : Alongside name acc acc')
    (hescape : ESCAPE ∉ name) (hequals : '=' ∉ name) {n}
    (hsplit : trySplitAssignment acc.result.1 = some (n, value)) :
    acc'.result = (quotedParts (ShellBytes.ofText n) value, true) := by
  obtain ⟨v, parts, hparts, hflush, hflush', hquoting, -⟩ := h.flush
  obtain ⟨joined, rest, hjoined, hempty⟩ := coalesceFrom_literal parts
  have hbytes : strToBytes (name ++ '=' :: v) = strToBytes name ++ 0x3D :: strToBytes v := by
    rw [strToBytes_append_plain hescape, strToBytes_cons (by decide), if_neg (by decide)]
    rfl
  have hname := not_mem_strToBytes hescape hequals
  rw [WordAcc.result, hflush] at hsplit
  dsimp only at hsplit
  rw [coalesceLiterals, hjoined, hbytes, append_assoc, cons_append,
    trySplitAssignment_literal hname] at hsplit
  obtain ⟨n', hn, hsplit⟩ := Option.bind_eq_some_iff.mp hsplit
  split at hsplit
  · cases hsplit
    have hvalue : coalesceLiterals (plainParts v ++ parts) =
        (if (strToBytes v ++ joined).isEmpty then [] else [.Literal (strToBytes v ++ joined)]) ++
          rest := by
      cases v with
      | nil => exact hempty hparts
      | cons c v =>
        have hne : strToBytes (c :: v) ≠ [] := strToBytes_ne_nil (by rintro ⟨⟩)
        rw [if_neg (by simp [hne])]
        exact hjoined _
    have hquoted : coalesceLiterals (quotedParts (strToBytes name) (plainParts v ++ parts)) =
        quotedParts (strToBytes name) (coalesceLiterals (plainParts v ++ parts)) := by
      have hpart : ∀ s, WordPart.DoubleQuoted [.Literal [0x3D]] ≠ .Literal s := by rintro s ⟨⟩
      rw [quotedParts, coalesceLiterals, coalesceFrom, coalesceFrom_part hpart, quotedParts]
      intro _ _ _ heq
      cases heq
    rw [WordAcc.result, hflush']
    dsimp only
    rw [hquoted, hvalue, hquoting, ← eq_ofText hn]
  · cases hsplit

/-! ## Words that are no assignments -/

theorem continuesName_ascii (h : continuesName c = true) : c.toNat < 128 := by
  rw [continuesName, Bool.or_eq_true, beq_iff_eq] at h
  rcases h with rfl | h
  · decide
  · exact Ascii.toNat_of_isAlphanum h

theorem continuesName_of_isName (hname : isName name = true)
    (hc : c ∈ name) : continuesName c = true := by
  cases name with
  | nil => cases hname
  | cons first name =>
    rw [isName, Bool.and_eq_true] at hname
    rcases mem_cons.mp hc with rfl | hc
    · have hstart := hname.1
      rw [startsName, Bool.or_eq_true] at hstart
      rw [continuesName, Char.isAlphanum, Bool.or_eq_true, Bool.or_eq_true]
      rcases hstart with h | h
      · exact .inl h
      · exact .inr (.inl h)
    · exact all_eq_true.mp hname.2 c hc

theorem ascii_of_isName (hname : isName name = true) : Ascii.isAscii name = true :=
  all_eq_true.mpr fun _ hc =>
    decide_eq_true (continuesName_ascii (continuesName_of_isName hname hc))

theorem name_byte (h : asUtf8Str bytes = some name)
    (hname : isName name = true) (hb : b ∈ bytes) :
    b < 0x80 ∧ continuesName (Char.ofNat b.toNat) = true := by
  rw [eq_ofText h, ShellBytes.ofText, Utf8.encode, mem_flatMap] at hb
  obtain ⟨c, hc, hb⟩ := hb
  have hcontinues := continuesName_of_isName hname hc
  have hascii := continuesName_ascii hcontinues
  have hbyte : String.utf8EncodeChar c = [Ascii.byte c] := by
    have hencode := @Ascii.encode_of_isAscii [c] (by simpa [Ascii.isAscii] using hascii)
    rwa [Utf8.encode_cons, Utf8.encode_nil, append_nil] at hencode
  rw [hbyte, mem_singleton] at hb
  have hchar := Ascii.char_byte hascii
  rw [Ascii.char] at hchar
  subst hb
  rw [hchar]
  refine ⟨?_, hcontinues⟩
  rw [UInt8.lt_iff_toNat_lt, Ascii.toNat_byte hascii]
  exact hascii

/-- A byte that is in no name comes before any `=`. -/
theorem trySplitAssignment_bad (hequals : 0x3D ∉ before)
    (hb : b ∈ before) (hbad : ¬ (b < 0x80 ∧ continuesName (Char.ofNat b.toNat) = true))
    (after : ShellBytes) (rest : List WordPart) :
    trySplitAssignment (.Literal (before ++ after) :: rest) = none := by
  by_cases hafter : 0x3D ∈ after
  · obtain ⟨x, y, rfl, hx⟩ := eq_append_cons_of_mem hafter
    rw [← append_assoc, trySplitAssignment_literal (not_mem_append hequals hx),
      Option.bind_eq_none_iff]
    intro name hname
    refine if_neg fun hisName => hbad ?_
    exact name_byte hname hisName (mem_append_left x hb)
  · have hcontains : (before ++ after).contains 0x3D = false := by
      rw [← Bool.not_eq_true, contains_iff_mem]
      exact not_mem_append hequals hafter
    rw [trySplitAssignment, hcontains]
    rfl

/-- The parts of a word that goes on from `acc`. -/
def Extends (acc : WordAcc) (parts : List WordPart) : Prop :=
  ∃ text more, parts = coalesceLiterals (acc.parts ++ plainParts (acc.literal ++ text) ++ more)

namespace Extends

variable {acc : WordAcc} {parts : List WordPart}

theorem result (acc : WordAcc) : Extends acc acc.result.1 := by
  refine ⟨[], [], ?_⟩
  rw [WordAcc.result, WordAcc.flush_eq, append_nil, append_nil]

theorem of_push (h : Extends (acc.push c) parts) : Extends acc parts := by
  obtain ⟨text, more, rfl⟩ := h
  have hliteral : acc.literal ++ c :: text = (acc.push c).literal ++ text :=
    (append_assoc acc.literal [c] text).symm
  refine ⟨c :: text, more, ?_⟩
  rw [hliteral]
  rfl

theorem of_flush (h : Extends acc.flush parts) : Extends acc parts := by
  obtain ⟨text, more, rfl⟩ := h
  refine ⟨[], plainParts text ++ more, ?_⟩
  rw [WordAcc.flush_eq, append_nil]
  simp only [nil_append, append_assoc]

theorem of_add {part} (hliteral : acc.literal = []) (h : Extends (acc.add part) parts) :
    Extends acc parts := by
  obtain ⟨text, more, rfl⟩ := h
  refine ⟨[], part :: plainParts text ++ more, ?_⟩
  simp only [WordAcc.add, hliteral, nil_append, append_assoc, plainParts,
    isEmpty_nil, if_true, cons_append]

theorem of_flush_add {part} (h : Extends (acc.flush.add part) parts) :
    Extends acc parts :=
  of_flush (of_add (by rw [WordAcc.flush_eq]) h)

end Extends

section

variable (nested : Nested) (span : Span)

theorem returns_readEscape (acc : WordAcc) :
    Returns (fun acc' => ∀ parts, Extends acc' parts → Extends acc parts)
      (readEscape .Word acc) := by
  unfold readEscape
  refine .bind fun next => ?_
  cases next with
  | none => exact .pure fun _ h => h
  | some c =>
    refine .ite (fun h => nomatch h) fun _ => .ite (fun _ => .bind fun _ => ?_) fun _ => ?_
    · exact .pure fun _ h => h.of_flush_add
    · exact .pure fun _ h => h.of_flush_add

theorem returns_readWordPart (n : Nat) (acc : WordAcc) (c : Char) :
    Returns (fun acc' => ∀ parts, Extends acc' parts → Extends acc parts)
      (readWordPart nested span .Word false n acc c) := by
  cases n with
  | zero => exact .diverge
  | succ n =>
    cases hplain : isPlainChar c with
    | true =>
      rw [readWordPart_plain nested span n acc hplain]
      refine .bind fun _ => .ite (fun htilde => .bind fun user => ?_) fun _ => ?_
      · have hblank := htilde.2.2.2
        rw [WordAcc.isBlank, Bool.and_eq_true, List.isEmpty_iff, List.isEmpty_iff] at hblank
        exact .pure fun _ h => h.of_add hblank.2
      · exact .pure fun _ h => h.of_push
    | false =>
      rcases special_of_not_plain hplain with rfl | rfl | rfl | rfl | rfl
      · exact .bind fun _ => .bind fun inner => .pure fun parts h =>
          @Extends.of_flush_add acc parts (.DoubleQuoted inner) h
      · exact .bind fun _ => .bind fun content => .pure fun parts h =>
          @Extends.of_flush_add acc parts (.SingleQuoted (strToBytes content)) h
      · exact .bind fun _ => returns_readEscape acc.quoting
      · refine .bind fun _ => .bind fun part => ?_
        cases part with
        | none => exact .pure fun _ h => h.of_push.of_flush
        | some part => exact .pure fun _ h => h.of_flush_add
      · exact .bind fun _ => .bind fun part => .pure fun _ h => h.of_flush_add

theorem returns_readWordLoop (n : Nat) (acc : WordAcc) :
    Returns (fun result => Extends acc result.1)
      (readWordLoop nested span .Word false n acc) := by
  induction n generalizing acc with
  | zero => exact .diverge
  | succ n ih =>
    unfold readWordLoop
    refine .bind fun next => ?_
    cases next with
    | none => exact .ite (fun h => by cases h) fun _ => .pure (.result acc)
    | some c =>
      refine .ite (fun _ => .pure (.result acc)) fun _ => .ite (fun h => by cases h.1) fun _ => ?_
      refine .andThen (returns_readWordPart nested span n acc c) fun acc' hacc => ?_
      exact fun s result t h => hacc _ (ih acc' s result t h)

end

section

variable {text : Text} (hescape : ESCAPE ∉ text) (hequals : '=' ∉ text)

include hescape hequals

theorem trySplitAssignment_text (rest : List WordPart) :
    trySplitAssignment (.Literal (strToBytes text) :: rest) = none := by
  have hcontains : (strToBytes text).contains 0x3D = false := by
    rw [← Bool.not_eq_true, contains_iff_mem]
    exact not_mem_strToBytes hescape hequals
  rw [trySplitAssignment, hcontains]
  rfl

theorem not_assignment_plain : trySplitAssignment (coalesceLiterals (plainParts text)) = none := by
  cases text with
  | nil => rfl
  | cons c text => exact trySplitAssignment_text hescape hequals []

/-- Text without `=` in front of a part that is not literal. -/
theorem not_assignment_part {part} (hpart : ∀ s, part ≠ .Literal s)
    (more : List WordPart) :
    trySplitAssignment (coalesceLiterals (plainParts text ++ part :: more)) = none := by
  cases text with
  | nil =>
    change trySplitAssignment (coalesceFrom part more) = none
    rw [coalesceFrom_part hpart]
    cases part with
    | Literal s => exact absurd rfl (hpart s)
    | _ => rfl
  | cons c text =>
    change trySplitAssignment (coalesceFrom (.Literal (strToBytes (c :: text))) (part :: more)) = _
    have hjoin : coalesceFrom (.Literal (strToBytes (c :: text))) (part :: more) =
        .Literal (strToBytes (c :: text)) :: coalesceFrom part more := by
      rw [coalesceFrom]
      exact fun _ s _ heq => hpart s heq
    rw [hjoin]
    exact trySplitAssignment_text hescape hequals _

/-- Text without `=` in front of a character that is in no name. -/
theorem not_assignment_bad {unit : Text} {b : UInt8} {bytes after : ShellBytes}
    (hunit : strToBytes unit = bytes ++ after) (hne : unit ≠ []) (hb : b ∈ bytes)
    (hbad : ¬ (b < 0x80 ∧ continuesName (Char.ofNat b.toNat) = true)) (hbytes : 0x3D ∉ bytes)
    (more : List WordPart) :
    trySplitAssignment (coalesceLiterals (plainParts text ++ plainParts unit ++ more)) = none := by
  have hplain : plainParts unit = [.Literal (strToBytes unit)] := if_neg (by simpa using hne)
  obtain ⟨joined, rest, hjoined, -⟩ := coalesceFrom_literal more
  have hjoin : coalesceLiterals (plainParts text ++ plainParts unit ++ more) =
      .Literal ((strToBytes text ++ bytes) ++ (after ++ joined)) :: rest := by
    rw [hplain]
    cases text with
    | nil =>
      change coalesceFrom (.Literal (strToBytes unit)) more = _
      rw [hjoined, hunit, append_assoc]
      rfl
    | cons c text =>
      change coalesceFrom (.Literal (strToBytes (c :: text)))
        (.Literal (strToBytes unit) :: more) = _
      rw [coalesceFrom, hjoined, hunit]
      simp only [append_assoc]
  rw [hjoin]
  have hnot := not_mem_strToBytes hescape hequals
  exact trySplitAssignment_bad (not_mem_append hnot hbytes) (mem_append_right _ hb) hbad _ _

end

theorem coalesceLiterals_plainParts (hescape : ESCAPE ∉ text) (unit : Text) (more : List WordPart) :
    coalesceLiterals (plainParts (text ++ unit) ++ more) =
      coalesceLiterals (plainParts text ++ plainParts unit ++ more) := by
  cases text with
  | nil => rfl
  | cons c text =>
    cases unit with
    | nil =>
      rw [append_nil]
      change _ = coalesceLiterals (plainParts (c :: text) ++ [] ++ more)
      rw [append_nil]
    | cons d unit =>
      change coalesceFrom (.Literal (strToBytes (c :: text ++ d :: unit))) more =
        coalesceFrom (.Literal (strToBytes (c :: text)))
          (.Literal (strToBytes (d :: unit)) :: more)
      rw [coalesceFrom, strToBytes_append_plain hescape]

/-! ## In front of the `=` -/

section

variable (nested : Nested) (span : Span)

theorem advance_none (h : advance s = some (.ok none, t)) : t.src = [] := by
  unfold advance at h
  obtain ⟨next, u, hpeek, h⟩ := bind_eq_ok h
  obtain ⟨-, hnext, -⟩ := peekChar_cases hpeek
  cases next with
  | none =>
    cases h
    exact head?_eq_none_iff.mp hnext.symm
  | some c =>
    change some (Ending.ok u.src.head?, u.advanced) = _ at h
    rw [← hnext] at h
    cases h

variable {result : List WordPart × Bool}

theorem readWordLoop_end (hs : s.src = [])
    (h : readWordLoop nested span .Word false n acc s = some (.ok result, t)) :
    result = acc.result := by
  cases n with
  | zero => cases h
  | succ n =>
    have hcontinuation : atContinuation s.src = false := by rw [hs]; rfl
    unfold readWordLoop at h
    rw [bind_ok (peekChar_eq hcontinuation), hs] at h
    cases h
    rfl

variable {had_quoting : Bool}

/-- Without `=` a special character makes no assignment. -/
theorem special_not_assignment (hplain : isPlainChar c = false)
    (hescape : ESCAPE ∉ text) (hequals : '=' ∉ text)
    (hpart : readWordPart nested span .Word false n { literal := text, had_quoting } c s =
      some (.ok acc, t))
    (hloop : readWordLoop nested span .Word false n acc t = some (.ok result, u)) :
    trySplitAssignment result.1 = none := by
  have hextends := returns_readWordLoop nested span n acc t result u hloop
  have hadd (part : WordPart) (hpart : ∀ s, part ≠ .Literal s) (q : Bool)
      (h : Extends { parts := plainParts text ++ [part], had_quoting := q } result.1) :
      trySplitAssignment result.1 = none := by
    obtain ⟨more, rest, h⟩ := h
    rw [h]
    simp only [nil_append, append_assoc, singleton_append]
    exact not_assignment_part hescape hequals hpart _
  have hflush (q : Bool) : ({ literal := text, had_quoting := q } : WordAcc).flush =
      { parts := plainParts text, had_quoting := q } := by
    rw [WordAcc.flush_eq]
    rfl
  cases n with
  | zero => cases hpart
  | succ n =>
    rcases special_of_not_plain hplain with rfl | rfl | rfl | rfl | rfl
    · obtain ⟨_, v, -, hpart⟩ := bind_eq_ok hpart
      obtain ⟨inner, w, -, hpart⟩ := bind_eq_ok hpart
      cases hpart
      rw [hflush] at hextends
      exact hadd (.DoubleQuoted inner) (by rintro s ⟨⟩) true hextends
    · obtain ⟨_, v, -, hpart⟩ := bind_eq_ok hpart
      obtain ⟨content, w, -, hpart⟩ := bind_eq_ok hpart
      cases hpart
      rw [hflush] at hextends
      exact hadd (.SingleQuoted (strToBytes content)) (by rintro s ⟨⟩) true hextends
    · obtain ⟨_, v, -, hpart⟩ := bind_eq_ok hpart
      change readEscape .Word { literal := text, had_quoting := true } v = _ at hpart
      unfold readEscape at hpart
      obtain ⟨next, w, hnext, hpart⟩ := bind_eq_ok hpart
      cases next with
      | none =>
        cases hpart
        rw [readWordLoop_end nested span (advance_none hnext) hloop, WordAcc.result, hflush]
        exact not_assignment_plain hescape hequals
      | some c =>
        dsimp only at hpart
        rw [if_neg (by rintro ⟨⟩), hflush] at hpart
        split at hpart
        · obtain ⟨literal, x, -, hpart⟩ := bind_eq_ok hpart
          cases hpart
          exact hadd (.DoubleQuoted _) (by rintro s ⟨⟩) true hextends
        · obtain ⟨literal, x, -, hpart⟩ := bind_eq_ok hpart
          cases hpart
          exact hadd (.DoubleQuoted _) (by rintro s ⟨⟩) true hextends
    · obtain ⟨_, v, -, hpart⟩ := bind_eq_ok hpart
      obtain ⟨part, w, hdollar, hpart⟩ := bind_eq_ok hpart
      have hexpansion := returns_readDollar nested span false n v part w hdollar
      cases part with
      | none =>
        cases hpart
        rw [hflush] at hextends
        obtain ⟨more, rest, hresult⟩ := hextends
        rw [hresult]
        change trySplitAssignment (coalesceLiterals
          (plainParts text ++ plainParts ('$' :: more) ++ rest)) = none
        have hbytes : strToBytes ('$' :: more) = [0x24] ++ strToBytes more := by
          rw [strToBytes_cons (by decide), if_neg (by decide)]
          rfl
        exact not_assignment_bad hescape hequals hbytes (by rintro ⟨⟩) (mem_singleton_self _)
          (by decide) (by decide) rest
      | some part =>
        cases hpart
        rw [hflush] at hextends
        exact hadd part (hexpansion part rfl).ne_literal had_quoting hextends
    · obtain ⟨_, v, -, hpart⟩ := bind_eq_ok hpart
      obtain ⟨part, w, hbacktick, hpart⟩ := bind_eq_ok hpart
      have hexpansion := returns_readBacktickPart nested span n v part w hbacktick
      cases hpart
      rw [hflush] at hextends
      exact hadd part hexpansion.ne_literal had_quoting hextends

theorem not_endsWord_of_high (hd : 0x80 ≤ d.toNat) (acc : WordAcc) :
    ¬ endsWord .Word false acc d = true := by
  intro h
  simp only [endsWord, isWordEnd, beq_self_eq_true, Bool.true_and, Bool.false_eq_true, if_false,
    Bool.or_eq_true, Bool.and_eq_true, beq_iff_eq, or_assoc] at h
  rcases h with rfl | rfl | rfl | rfl | rfl | rfl | rfl | rfl | rfl | rfl | ⟨rfl, -⟩ <;>
    exact absurd hd (by decide)

theorem isPlainChar_of_high (hd : 0x80 ≤ d.toNat) : isPlainChar d = true := by
  cases hplain : isPlainChar d with
  | true => rfl
  | false =>
    rcases special_of_not_plain hplain with rfl | rfl | rfl | rfl | rfl <;>
      exact absurd hd (by decide)

/-- Nor does a character that is encoded with an escape. -/
theorem escape_not_assignment (hd : 0x80 ≤ d.toNat)
    (hescape : ESCAPE ∉ text) (hequals : '=' ∉ text)
    (hs : s.src.head? = some d)
    (h : readWordLoop nested span .Word false n
      { literal := text ++ [ESCAPE], had_quoting } s = some (.ok result, t)) :
    trySplitAssignment result.1 = none := by
  have hcontinuation : atContinuation s.src = false := by
    obtain ⟨src, hsrc⟩ := head?_eq_some_iff.mp hs
    rw [hsrc]
    refine atContinuation_cons ?_
    rintro rfl
    exact absurd hd (by decide)
  cases n with
  | zero => cases h
  | succ n =>
    unfold readWordLoop at h
    rw [bind_ok (peekChar_eq hcontinuation), hs] at h
    dsimp only at h
    rw [if_neg (not_endsWord_of_high hd _), if_neg (by rintro ⟨⟨⟩, -⟩)] at h
    obtain ⟨acc, v, hpart, hloop⟩ := bind_eq_ok h
    rcases n with _ | n
    · cases hpart
    rw [readWordPart_plain nested span n _ (isPlainChar_of_high hd)] at hpart
    obtain ⟨_, w, -, hpart⟩ := bind_eq_ok hpart
    rw [if_neg (by rintro ⟨rfl, -⟩; exact absurd hd (by decide))] at hpart
    cases hpart
    obtain ⟨more, rest, hresult⟩ := returns_readWordLoop nested span _ _ _ result t hloop
    have hunit : text ++ [ESCAPE] ++ [d] ++ more = text ++ (ESCAPE :: d :: more) := by simp
    have hbytes : strToBytes (ESCAPE :: d :: more) =
        String.utf8EncodeChar d ++ strToBytes more := rfl
    have hhigh : ∀ b ∈ String.utf8EncodeChar d, ¬ b < 0x80 := by
      intro b hb hlow
      have hchar := congrArg Char.toNat (Utf8.eq_of_ascii_mem hlow hb)
      rw [UInt8.lt_iff_toNat_lt] at hlow
      have h80 : (0x80 : UInt8).toNat = 128 := rfl
      rw [Utf8.toNat_charOfNat (Or.inl (by omega))] at hchar
      omega
    obtain ⟨b, hb⟩ : ∃ b, b ∈ String.utf8EncodeChar d := by
      refine exists_mem_of_length_pos ?_
      rw [String.length_utf8EncodeChar]
      exact d.utf8Size_pos
    rw [hresult]
    change trySplitAssignment
      (coalesceLiterals ([] ++ plainParts (text ++ [ESCAPE] ++ [d] ++ more) ++ rest)) = none
    rw [nil_append, hunit, coalesceLiterals_plainParts hescape]
    exact not_assignment_bad hescape hequals hbytes (by rintro ⟨⟩) hb (fun h => hhigh b hb h.1)
      (fun h => hhigh _ h (by decide)) rest

/-- At the `=` the quoted word has the name and the `=` for parts. -/
theorem readEscape_equals {u : LexerState} (hu : u.src.head? = some '=')
    (hne : text ≠ []) (had_quoting : Bool) :
    ∃ v, (skipChar >>= fun _ =>
        readEscape .Word ({ literal := text, had_quoting } : WordAcc).quoting) u.quoted =
      some (.ok { parts := quotedParts (strToBytes text) [], had_quoting := true }, v) ∧
      SameText u.advanced v := by
  obtain ⟨src, hsrc⟩ := head?_eq_some_iff.mp hu
  have hquoted : u.quoted.src = '\\' :: '=' :: src := by
    rw [LexerState.quoted, hsrc]
    rfl
  have hsecond : u.quoted.advanced.src = '=' :: src := by rw [src_advanced, hquoted, tail_cons]
  have hskip : skipChar u.quoted = some (.ok (), u.quoted.advanced) :=
    skipChar_eq (c := '\\') (by rw [hquoted]; rfl) (by rw [hquoted]; rfl)
  have hadvance : advance u.quoted.advanced =
      some (.ok (some '='), u.quoted.advanced.advanced) := by
    rw [advance, bind_ok (peekChar_eq (by rw [hsecond]; rfl)), hsecond]
    change some (Ending.ok u.quoted.advanced.src.head?, u.quoted.advanced.advanced) = _
    rw [hsecond]
    rfl
  have hplain : plainParts text = [.Literal (strToBytes text)] := if_neg (by simpa using hne)
  refine ⟨u.quoted.advanced.advanced, ?_, ?_⟩
  · rw [bind_ok hskip, readEscape, bind_ok hadvance]
    dsimp only
    rw [if_neg nofun, if_neg (by decide), WordAcc.flush_eq]
    simp only [WordAcc.quoting, hplain]
    rfl
  · have hone (s : LexerState) {c : Char} {rest : List Char} (hs : s.src = c :: rest)
        (hc : c ≠ ESCAPE) : s.advanced.encoding_prefix = false := by
      unfold LexerState.advanced
      rw [hs]
      dsimp only
      rw [if_neg fun h => hc h.1]
      split <;> rfl
    have hlater := (later_advanced u.quoted).trans (later_advanced u.quoted.advanced)
    have hlater' := later_advanced u
    exact {
      src := by rw [src_advanced, hsecond, src_advanced, hsrc, tail_cons]
      encoding_prefix := by rw [hone _ hsecond (by decide), hone _ hsrc (by decide)]
      nesting := hlater.nesting.trans hlater'.nesting.symm
      pushback := hlater.pushback.trans hlater'.pushback.symm
      pending_heredocs := hlater.pending_heredocs.trans hlater'.pending_heredocs.symm }

/-- A word that starts with `=` is no assignment. -/
theorem empty_name_not_assignment
    (h : readWordLoop nested span .Word false n { literal := ['='], had_quoting } s =
      some (.ok result, t)) : trySplitAssignment result.1 = none := by
  obtain ⟨more, rest, hresult⟩ := returns_readWordLoop nested span n _ s result t h
  obtain ⟨joined, parts, hjoined, -⟩ := coalesceFrom_literal rest
  rw [hresult]
  change trySplitAssignment (coalesceFrom (.Literal (strToBytes ('=' :: more))) rest) = none
  have hbytes : strToBytes ('=' :: more) = [] ++ 0x3D :: strToBytes more := by
    rw [strToBytes_cons (by decide), if_neg (by decide)]
    rfl
  rw [hjoined, hbytes, append_assoc, cons_append,
    trySplitAssignment_literal not_mem_nil]
  rfl

/-- **The two words** up to the `=`: what is read as an assignment is read as a word of
the same parts when the `=` is quoted. -/
theorem readWordLoop_quoted
    (hescape : ESCAPE ∉ text) (hequals : '=' ∉ text) (hsrc : IsShellText s.src)
    (hrun : readWordLoop nested span .Word false n { literal := text, had_quoting } s =
      some (.ok result, t))
    (hsplit : trySplitAssignment result.1 = some (name, value)) :
    ∃ t', readWordLoop nested span .Word false n { literal := text, had_quoting } s.quoted =
        some (.ok (quotedParts (ShellBytes.ofText name) value, true), t') ∧ SameText t t' := by
  have hresult (text : Text) (hescape : ESCAPE ∉ text) (hequals : '=' ∉ text) :
      trySplitAssignment ({ literal := text, had_quoting } : WordAcc).result.1 = none := by
    rw [WordAcc.result, WordAcc.flush_eq]
    exact not_assignment_plain hescape hequals
  induction n generalizing text s with
  | zero => cases hrun
  | succ n ih =>
    unfold readWordLoop at hrun ⊢
    obtain ⟨next, u, hpeek, hrun⟩ := bind_eq_ok hrun
    rw [bind_ok (peekChar_quoted hpeek)]
    obtain ⟨hu, hnext, hcontinuation⟩ := peekChar_cases hpeek
    have htext : IsShellText u.src := by
      rw [hu]
      exact isShellText_skipContinuations s.src s rfl hsrc
    cases next with
    | none =>
      dsimp only at hrun
      rw [if_neg (by rintro ⟨⟩)] at hrun
      cases hrun
      rw [hresult text hescape hequals] at hsplit
      cases hsplit
    | some c =>
      dsimp only at hrun
      split at hrun
      · cases hrun
        rw [hresult text hescape hequals] at hsplit
        cases hsplit
      rename_i hends
      rw [if_neg (by rintro ⟨⟨⟩, -⟩)] at hrun
      obtain ⟨acc, v, hpart, hloop⟩ := bind_eq_ok hrun
      cases hplain : isPlainChar c with
      | false =>
        rw [special_not_assignment nested span hplain hescape hequals hpart hloop] at hsplit
        cases hsplit
      | true =>
        cases n with
        | zero => cases hpart
        | succ n =>
          rw [readWordPart_plain nested span n _ hplain,
            bind_ok (skipChar_eq hcontinuation hnext.symm)] at hpart
          split at hpart
          · rename_i htilde
            have hblank := htilde.2.2.2
            rw [WordAcc.isBlank, Bool.and_eq_true, List.isEmpty_iff, List.isEmpty_iff]
              at hblank
            obtain rfl : text = [] := hblank.2
            obtain ⟨user, w, -, hpart⟩ := bind_eq_ok hpart
            cases hpart
            obtain ⟨more, rest, hmore⟩ := returns_readWordLoop nested span _ _ _ _ _ hloop
            rw [hmore, append_assoc] at hsplit
            have hnone := @not_assignment_part [] hescape hequals
              (.Tilde (strToBytes user)) (by rintro s ⟨⟩) (plainParts more ++ rest)
            exact absurd (hnone.symm.trans hsplit) (by rintro ⟨⟩)
          · rename_i htilde
            cases hpart
            by_cases hc : c = '='
            · subst hc
              by_cases hne : text = []
              · subst hne
                rw [empty_name_not_assignment nested span hloop] at hsplit
                cases hsplit
              obtain ⟨v, hescaped, hsame⟩ := readEscape_equals hnext.symm hne had_quoting
              rw [show u.quoted.src.head? = some '\\' from head_quoteEquals_of hnext.symm]
              dsimp only
              rw [if_neg (by simp [endsWord, isWordEnd]), if_neg (by rintro ⟨⟨⟩, -⟩)]
              have hpart' : readWordPart nested span .Word false (n + 1)
                  { literal := text, had_quoting } '\\' u.quoted = _ := hescaped
              rw [bind_ok hpart']
              obtain ⟨result', t', hrun', ⟨acc, acc', halong, rfl, rfl⟩, ht⟩ :=
                mirrors_readWordLoop nested span (n + 1)
                  (Alongside.literal [] had_quoting 1) _ _ _ _ hsame hloop
              rw [halong.result_eq hescape hequals hsplit] at hrun'
              exact ⟨t', hrun', ht⟩
            · have hne : u.src.head? ≠ some '=' := by
                rw [← hnext]
                exact fun h => hc (Option.some.inj h)
              obtain ⟨src, hu⟩ := head?_eq_some_iff.mp hnext.symm
              rw [hu] at htext
              rcases htext.uncons with ⟨hplainc, hsrc'⟩ | ⟨rfl, d, rest, hd, hhigh, -⟩
              · have hescape' : ESCAPE ∉ text ++ [c] :=
                  not_mem_append hescape fun h => hplainc (mem_singleton.mp h).symm
                have hequals' : '=' ∉ text ++ [c] :=
                  not_mem_append hequals fun h => hc (mem_singleton.mp h).symm
                have htail : IsShellText u.advanced.src := by
                  rwa [src_advanced, hu]
                obtain ⟨t', hrun', ht⟩ := ih hescape' hequals' htail hloop
                refine ⟨t', ?_, ht⟩
                rw [show u.quoted.src.head? = some c from
                  (head_quoteEquals hne).trans hnext.symm]
                dsimp only
                have hpart' : readWordPart nested span .Word false (n + 1)
                    { literal := text, had_quoting } c u.quoted =
                      some (.ok (({ literal := text, had_quoting } : WordAcc).push c),
                        u.advanced.quoted) := by
                  rw [readWordPart_plain nested span n _ hplain,
                    bind_ok (skipChar_quoted hcontinuation hnext.symm hc),
                    if_neg htilde]
                  rfl
                rw [if_neg hends, if_neg (by rintro ⟨⟨⟩, -⟩)]
                exact (bind_ok hpart').trans hrun'
              · have hnone := escape_not_assignment nested span hhigh hescape hequals
                  (by rw [src_advanced, hu, hd]; rfl) hloop
                exact absurd (hnone.symm.trans hsplit) (by rintro ⟨⟩)

def Token.isAssignment : Token → Bool
  | Assignment .. => true
  | _ => false

theorem returns_tryOperator :
    Returns (fun result => Option.any Token.isAssignment result = false) tryOperator := by
  have hone {x : LexM Token} (hx : Returns (fun token => token.isAssignment = false) x) :
      Returns (fun result => Option.any Token.isAssignment result = false)
        (skipChar >>= fun _ => some <$> x) :=
    .bind fun _ => .map hx fun token htoken => htoken
  have hafter {short : Token} {longer : List (Char × Token)} (hshort : short.isAssignment = false)
      (hlonger : ∀ pair ∈ longer, pair.2.isAssignment = false) :
      Returns (fun token => token.isAssignment = false) (operatorAfter short longer) :=
    returns_operatorAfter hshort hlonger
  unfold tryOperator
  refine .bind fun next => ?_
  split
  · exact hone (hafter rfl (by simp [Token.isAssignment]))
  · exact hone (hafter rfl (by simp [Token.isAssignment]))
  · exact hone (hafter rfl (by simp [Token.isAssignment]))
  · exact .bind fun _ => .pure rfl
  · exact .bind fun _ => .pure rfl
  · refine hone ?_
    unfold lessOperator
    refine .andThen (hafter rfl (by simp [Token.isAssignment])) fun token htoken => ?_
    split
    · exact hafter rfl (by simp [Token.isAssignment])
    · exact .pure htoken
  · exact hone (hafter rfl (by simp [Token.isAssignment]))
  · exact .pure rfl

theorem tokenOfWord_assignment
    (h : tokenOfWord recognize_reserved parts had_quoting = .Assignment name value) :
    trySplitAssignment parts = some (name, value) := by
  have hreserved : reservedWords.all (fun pair => !pair.2.isAssignment) = true := rfl
  unfold tokenOfWord at h
  dsimp only at h
  split at h
  · rename_i token heq
    split at heq
    · obtain ⟨text, -, hlookup⟩ := Option.bind_eq_some_iff.mp heq
      obtain ⟨before, after, hlist, -⟩ := lookup_eq_some_iff.mp hlookup
      have hmem : (text, token) ∈ reservedWords := by
        rw [hlist]
        exact mem_append_right before mem_cons_self
      have htoken := all_eq_true.mp hreserved _ hmem
      rw [h] at htoken
      cases htoken
    · cases heq
  · split at h
    · rename_i heq
      cases h
      exact heq
    · cases h

theorem trySplitAssignment_name
    (h : trySplitAssignment parts = some (name, value)) : isName name = true := by
  unfold trySplitAssignment at h
  split at h
  · split at h
    · split at h
      · dsimp only at h
        split at h
        · rename_i hname
          cases h
          exact hname
        · cases h
      · cases h
    · cases h
  · cases h

theorem tokenOfWord_quoted (hname : isName name = true) (value : List WordPart)
    (recognize_reserved : Bool) :
    tokenOfWord recognize_reserved (quotedParts (ShellBytes.ofText name) value) true =
      .Word (quotedParts (ShellBytes.ofText name) value) true := by
  have hcontains : (ShellBytes.ofText name).contains 0x3D = false := by
    rw [← Bool.not_eq_true, contains_iff_mem]
    intro hmem
    have hbyte := (name_byte (asUtf8Str_ofText name) hname hmem).2
    exact absurd hbyte (by decide)
  have hsplit : trySplitAssignment (quotedParts (ShellBytes.ofText name) value) = none := by
    rw [quotedParts, trySplitAssignment, hcontains]
    rfl
  unfold tokenOfWord
  rw [hsplit]
  cases recognize_reserved <;> rfl

variable {nested : Nested}

theorem scanToken_eq_readWord (hblanks : skipBlanks n s = some (.ok (), u))
    (hcontinuation : atContinuation u.src = false) (hend : ¬ AtLineEnd u.src)
    (hoperator : tryOperator u = some (.ok none, u)) :
    scanToken nested n s = readWord nested n u.span u := by
  unfold scanToken
  rw [bind_ok hblanks, bind_ok (show currentSpan u = some (.ok u.span, u) from rfl),
    bind_ok (peekChar_eq hcontinuation)]
  generalize hnext : u.src.head? = next
  split
  · exact absurd (.inl hnext) hend
  · exact absurd (.inr hnext) hend
  · rw [bind_ok hoperator]

theorem scanToken_isAssignment {token span} (htoken : token.isAssignment = true)
    (h : scanToken nested n s = some (.ok (token, span), t)) :
    ∃ u, skipBlanks n s = some (.ok (), u) ∧ atContinuation u.src = false ∧ ¬ AtLineEnd u.src ∧
      tryOperator u = some (.ok none, u) := by
  unfold scanToken at h
  obtain ⟨⟨⟩, u, hblanks, h⟩ := bind_eq_ok h
  obtain ⟨-, hcontinuation⟩ := skipBlanks_src hblanks
  obtain ⟨span', v, hspan, h⟩ := bind_eq_ok h
  cases hspan
  rw [bind_ok (peekChar_eq hcontinuation)] at h
  generalize hnext : u.src.head? = next at h
  split at h
  · cases h
    cases htoken
  · obtain ⟨_, v, -, h⟩ := bind_eq_ok h
    cases h
    cases htoken
  · rename_i hline
    obtain ⟨result, v, hoperator, h⟩ := bind_eq_ok h
    cases result with
    | some operator =>
      have hnot := returns_tryOperator u _ v hoperator
      cases h
      rw [Option.any_some, htoken] at hnot
      cases hnot
    | none =>
      obtain ⟨rfl, -⟩ := tryOperator_quoted hcontinuation hoperator
      refine ⟨v, hblanks, hcontinuation, ?_, hoperator⟩
      rintro (hhead | hhead)
      · rw [hnext] at hhead
        cases hhead
      · rw [hnext] at hhead
        exact hline (Option.some.inj hhead)

/-- **A word** that the lexer takes for an assignment is a word with the same value when
its `=` is quoted. -/
theorem scanToken_assignment {span} (hs : IsShellText s.src)
    (h : scanToken nested n s = some (.ok (.Assignment name value, span), t)) :
    isName name = true ∧ ∃ t', scanToken nested n s.quoted =
        some (.ok (.Word (quotedParts (ShellBytes.ofText name) value) true, span), t') ∧
      SameText t t' := by
  obtain ⟨u, hblanks, hcontinuation, hend, hoperator⟩ := scanToken_isAssignment rfl h
  obtain ⟨hquoted, htext⟩ := skipBlanks_quoted hblanks hend hs
  obtain ⟨-, hoperator'⟩ := tryOperator_quoted hcontinuation hoperator
  have hend' : ¬ AtLineEnd u.quoted.src := by
    by_cases hequals : u.src.head? = some '='
    · rw [AtLineEnd, show u.quoted.src.head? = some '\\' from head_quoteEquals_of hequals]
      rintro (h | h) <;> cases h
    · rw [AtLineEnd, show u.quoted.src.head? = u.src.head? from head_quoteEquals hequals]
      exact hend
  rw [scanToken_eq_readWord hblanks hcontinuation hend hoperator, readWord] at h
  rw [scanToken_eq_readWord hquoted (atContinuation_quoteEquals hcontinuation) hend' hoperator']
  obtain ⟨result, v, hloop, h⟩ := bind_eq_ok h
  dsimp only at h
  split at h
  · cases h
  obtain ⟨w, x, hget, h⟩ := bind_eq_ok h
  cases hget
  have htoken := congrArg Prod.fst (Ending.ok.inj (congrArg Prod.fst (Option.some.inj h)))
  have hstate : v = t := congrArg Prod.snd (Option.some.inj h)
  have hspan := congrArg Prod.snd (Ending.ok.inj (congrArg Prod.fst (Option.some.inj h)))
  have hsplit := tokenOfWord_assignment htoken
  obtain ⟨t', hloop', hsame⟩ := readWordLoop_quoted nested u.span not_mem_nil
    not_mem_nil htext hloop hsplit
  have hname := trySplitAssignment_name hsplit
  refine ⟨hname, t', ?_, hstate ▸ hsame⟩
  rw [readWord]
  change (readWordLoop nested u.span .Word false n { had_quoting := false } >>= _) u.quoted = _
  rw [bind_ok hloop']
  dsimp only
  rw [if_neg (by simp [quotedParts])]
  change some (Ending.ok (tokenOfWord t'.recognize_reserved _ true, u.span), t') = _
  rw [tokenOfWord_quoted hname]
  exact congrArg (fun span => some (Ending.ok (_, span), t')) hspan

end

/-! ## Places for a word -/

/-- The places at which the grammar asks for a word. -/
inductive WordPosition where
  /-- behind the first word of a simple command -/
  | argument (acc : Parser.SimpleAcc) (h : acc.args.isEmpty = false)
  | forElement
  | caseSubject
  | casePattern
  | redirTarget
  | hereDelimiter (strip_tabs : Bool)

namespace WordPosition

variable (env : ParserEnv) (rounds : Nat)

def isArgument : WordPosition → Bool
  | argument .. => true
  | _ => false

/-- What the parser reads at the place; the delimiter of a here-document is kept in the
state. -/
def readWordAt (command : ParseM Command) : WordPosition → ParseM (Option (List WordPart))
  | argument acc _ => do
    match ← Parser.nextItem env rounds command acc with
    | .arg word => return some word.parts
    | _ => return none
  | forElement => do return (← Parser.nextForWord env rounds).map Word.parts
  | caseSubject => do return some (← Parser.caseSubject env rounds).parts
  | casePattern => do return some (← Parser.casePattern env rounds).parts
  | redirTarget => do return some (← Parser.redirTarget env rounds).parts
  | hereDelimiter strip_tabs => do
    Parser.hereDelimiter env rounds strip_tabs
    return none

/-- The token that is taken at the place. -/
def takeToken : WordPosition → ParseM (Token × Span)
  | argument .. | forElement => Parser.next env rounds
  | _ => Parser.nextUnreserved env rounds

/-- The token at the place: the parser may have looked at it before it comes there. -/
def tokenAt (looked : Bool) (position : WordPosition) : ParseM (Token × Span) :=
  if looked then Parser.next env rounds else position.takeToken env rounds

/-- What is read at the place, where the parser may have looked at the token before. -/
def readFrom (command : ParseM Command) (looked : Bool) (position : WordPosition) :
    ParseM (Option (List WordPart)) := do
  if looked then
    let _ ← Parser.peek env rounds
  position.readWordAt env rounds command

variable {env rounds} {command : ParseM Command} {position : WordPosition} {s t : ParserState}
  {span : Span}

theorem readWordAt_argument
    (htoken : Parser.next env rounds s = some (.ok (.Assignment name value, span), t)) :
    (argument acc h).readWordAt env rounds command s =
      some (.ok (some (.Literal (strToBytes (name ++ ['='])) :: value)), t) := by
  have ht := Parser.next_pushback htoken
  have hitem : Parser.nextItem env rounds command acc s =
      some (.ok (.arg { parts := .Literal (strToBytes (name ++ ['='])) :: value }), t) := by
    rw [Parser.nextItem, bind_ok (Parser.peek_of_next htoken)]
    dsimp only
    rw [if_neg (by simp [h]), bind_ok (Parser.skip_pushed ht)]
    rfl
  rw [readWordAt, bind_ok hitem]
  rfl

/-- **An assignment** is no word where the parser does not ask for an argument. -/
theorem readWordAt_assignment (hposition : position.isArgument = false)
    (htoken : position.takeToken env rounds s = some (.ok (.Assignment name value, span), t)) :
    (∃ u, position.readWordAt env rounds command s = some (.ok none, u) ∧ position = forElement) ∨
      ∃ e u, position.readWordAt env rounds command s = some (.error e, u) := by
  cases position with
  | argument acc h => cases hposition
  | forElement =>
    replace htoken : Parser.next env rounds s = _ := htoken
    rw [readWordAt, Parser.nextForWord, bind_assoc, bind_ok (Parser.peek_of_next htoken)]
    exact .inl ⟨_, rfl, rfl⟩
  | caseSubject | casePattern | redirTarget | hereDelimiter =>
    simp only [readWordAt, Parser.caseSubject, Parser.casePattern, Parser.redirTarget,
      Parser.hereDelimiter, bind_assoc]
    rw [bind_ok (show Parser.nextUnreserved env rounds s = _ from htoken)]
    exact .inr ⟨_, _, rfl⟩

/-- What a place has of a word, apart from the state. -/
def wordOf (parts : List WordPart) : WordPosition → Option (List WordPart)
  | hereDelimiter _ => none
  | _ => some parts

/-- **A word** with quoting is one at every place. -/
theorem readWordAt_word
    (htoken : position.takeToken env rounds s = some (.ok (.Word parts true, span), t)) :
    ∃ u, position.readWordAt env rounds command s = some (.ok (position.wordOf parts), u) ∧
      (position.isArgument = true → u = t) := by
  cases position with
  | argument acc h =>
    replace htoken : Parser.next env rounds s = _ := htoken
    have ht := Parser.next_pushback htoken
    have hitem : Parser.nextItem env rounds command acc s =
        some (.ok (.arg { parts }), t) := by
      rw [Parser.nextItem, bind_ok (Parser.peek_of_next htoken)]
      dsimp only
      rw [bind_ok (Parser.skip_pushed ht), if_neg (by simp), Parser.wordItem,
        if_neg (by simp [Parser.SimpleAcc.isFirst, h])]
      rfl
    refine ⟨t, ?_, fun _ => rfl⟩
    rw [readWordAt, bind_ok hitem]
    rfl
  | forElement =>
    replace htoken : Parser.next env rounds s = _ := htoken
    rw [readWordAt, Parser.nextForWord, bind_assoc, bind_ok (Parser.peek_of_next htoken)]
    dsimp only
    rw [bind_assoc, bind_ok (Parser.skip_pushed (Parser.next_pushback htoken))]
    exact ⟨_, rfl, by rintro ⟨⟩⟩
  | caseSubject | casePattern | redirTarget | hereDelimiter =>
    simp only [readWordAt, Parser.caseSubject, Parser.casePattern, Parser.redirTarget,
      Parser.hereDelimiter, bind_assoc]
    rw [bind_ok (show Parser.nextUnreserved env rounds s = _ from htoken)]
    exact ⟨_, rfl, by rintro ⟨⟩⟩

/-- The state in which the place leaves the parser that has taken a token. -/
def after (position : WordPosition) (t : ParserState) : ParserState :=
  match position with
  | argument .. | forElement => t
  | _ => { t with lexer := { t.lexer with recognize_reserved := true } }

theorem nextUnreserved_reserved
    (h : Parser.nextUnreserved env rounds s = some (.ok token, t)) :
    t.lexer.recognize_reserved = true := by
  unfold Parser.nextUnreserved at h
  obtain ⟨_, u, -, h⟩ := bind_eq_ok h
  obtain ⟨token', v, -, h⟩ := bind_eq_ok h
  cases h
  rfl

theorem nextUnreserved_pushed (ht : t.lexer.pushback = none) :
    Parser.nextUnreserved env rounds (t.pushed token) =
      some (.ok token, { t with lexer := { t.lexer with recognize_reserved := true } }) := by
  change some (Ending.ok token, { t with
    lexer := { t.lexer with recognize_reserved := true, pushback := none } }) = _
  rw [← ht]

theorem readFrom_eq
    (htoken : position.tokenAt env rounds looked s = some (.ok token, t)) :
    ∃ v, position.readFrom env rounds command looked s =
        position.readWordAt env rounds command v ∧
      position.takeToken env rounds v = some (.ok token, position.after t) := by
  cases looked with
  | false =>
    replace htoken : position.takeToken env rounds s = _ := htoken
    refine ⟨s, rfl, htoken.trans (congrArg (fun u => some (Ending.ok token, u)) ?_)⟩
    have hsame (h : t.lexer.recognize_reserved = true) :
        t = { t with lexer := { t.lexer with recognize_reserved := true } } := by rw [← h]
    cases position with
    | argument | forElement => rfl
    | caseSubject | casePattern | redirTarget | hereDelimiter =>
      exact hsame (nextUnreserved_reserved htoken)
  | true =>
    replace htoken : Parser.next env rounds s = _ := htoken
    have ht := Parser.next_pushback htoken
    refine ⟨t.pushed token, bind_ok (Parser.peek_of_next htoken), ?_⟩
    cases position with
    | argument | forElement => exact Parser.next_pushed ht
    | caseSubject | casePattern | redirTarget | hereDelimiter => exact nextUnreserved_pushed ht

end WordPosition

/-- The words are the same up to the quoting of an `=`. -/
inductive SameWord : Option (List WordPart) → Option (List WordPart) → Prop where
  | none : SameWord none none
  | some (name : ShellBytes) (value : List WordPart) :
      SameWord (some (.Literal (name ++ [0x3D]) :: value)) (some (quotedParts name value))

/-- The parsers have the same to read, up to the position and the quoting of delimiters. -/
structure SameRest (s s' : ParserState) : Prop where
  src : s'.lexer.src = s.lexer.src
  encoding_prefix : s'.lexer.encoding_prefix = s.lexer.encoding_prefix
  nesting : s'.lexer.nesting = s.lexer.nesting
  pushback : s'.lexer.pushback = s.lexer.pushback
  recognize_reserved : s'.lexer.recognize_reserved = s.lexer.recognize_reserved
  pending_heredocs : s'.lexer.pending_heredocs.map (fun h => { h with quoted := true }) =
    s.lexer.pending_heredocs.map (fun h => { h with quoted := true })
  heredoc_bodies : s'.heredoc_bodies = s.heredoc_bodies

/-- Two readings of a word come to the same. -/
def ReadAlike : Option (Ending Empty SyntaxError (Option (List WordPart)) × ParserState) →
    Option (Ending Empty SyntaxError (Option (List WordPart)) × ParserState) → Prop
  | some (.ok parts, t), some (.ok parts', t') => SameWord parts parts' ∧ SameRest t t'
  | some (.error _, _), some (.error _, _) => True
  | none, none => True
  | _, _ => False

/-- The parser in front of the word with the quoted `=`. -/
def ParserState.quoted (s : ParserState) : ParserState := { s with lexer := s.lexer.quoted }

section

variable {env : ParserEnv} {rounds : Nat} {s t : ParserState} {span : Span} {name : Text}
  {value : List WordPart}

/-- The next token is a word if its `=` is quoted, and what comes behind it is the same. -/
theorem next_quoted (hs : s.lexer.pushback = none) (hsrc : IsShellText s.lexer.src)
    (h : Parser.next env rounds s = some (.ok (.Assignment name value, span), t)) :
    isName name = true ∧ ∃ t', Parser.next env rounds s.quoted =
        some (.ok (.Word (quotedParts (ShellBytes.ofText name) value) true, span), t') ∧
      SameRest t t' := by
  obtain ⟨⟨ending, lexer⟩, hlex, hr⟩ := Option.map_eq_some_iff.mp h
  cases hr
  unfold nextToken at hlex
  obtain ⟨state, v, hget, hlex⟩ := bind_eq_ok hlex
  cases hget
  rw [hs] at hlex
  obtain ⟨hname, lexer', hlex', hsame⟩ := scanToken_assignment hsrc hlex
  have hlater := readsOn_scanToken env.toNested rounds _ _ _ hlex
  have hlater' := readsOn_scanToken env.toNested rounds _ _ _ hlex'
  refine ⟨hname, { s with lexer := lexer' }, ?_, ?_⟩
  · have hquoted : s.lexer.quoted.pushback = none := hs
    have hget : (get : LexM LexerState) s.quoted.lexer =
      some (.ok s.lexer.quoted, s.lexer.quoted) := rfl
    rw [Parser.next, lexing, nextToken, bind_ok hget, hquoted]
    dsimp only
    rw [hlex']
    rfl
  · exact {
      src := hsame.src
      encoding_prefix := hsame.encoding_prefix
      nesting := hsame.nesting
      pushback := hsame.pushback
      recognize_reserved := hlater'.recognize_reserved.trans hlater.recognize_reserved.symm
      pending_heredocs := by rw [hsame.pending_heredocs]
      heredoc_bodies := rfl }

theorem nextUnreserved_quoted (hs : s.lexer.pushback = none) (hsrc : IsShellText s.lexer.src)
    (h : Parser.nextUnreserved env rounds s = some (.ok (.Assignment name value, span), t)) :
    isName name = true ∧ ∃ t', Parser.nextUnreserved env rounds s.quoted =
        some (.ok (.Word (quotedParts (ShellBytes.ofText name) value) true, span), t') ∧
      SameRest t t' := by
  unfold Parser.nextUnreserved at h ⊢
  obtain ⟨⟨⟩, u, hset, h⟩ := bind_eq_ok h
  cases hset
  obtain ⟨token, v, hnext, h⟩ := bind_eq_ok h
  cases h
  obtain ⟨hname, v', hnext', hsame⟩ :=
    next_quoted (s := { s with lexer := { s.lexer with recognize_reserved := false } }) hs hsrc hnext
  refine ⟨hname, { v' with lexer := { v'.lexer with recognize_reserved := true } }, ?_, ?_⟩
  · change (Parser.next env rounds >>= _) _ = _
    exact bind_ok hnext'
  · exact { hsame with recognize_reserved := rfl }

/-- The token at a place is a word if its `=` is quoted. -/
theorem tokenAt_quoted {position : WordPosition} (hs : s.lexer.pushback = none)
    (hsrc : IsShellText s.lexer.src)
    (h : position.tokenAt env rounds looked s = some (.ok (.Assignment name value, span), t)) :
    isName name = true ∧ ∃ t', position.tokenAt env rounds looked s.quoted =
        some (.ok (.Word (quotedParts (ShellBytes.ofText name) value) true, span), t') ∧
      SameRest t t' := by
  cases looked with
  | true => exact next_quoted hs hsrc h
  | false =>
    cases position with
    | argument | forElement => exact next_quoted hs hsrc h
    | caseSubject | casePattern | redirTarget | hereDelimiter =>
      exact nextUnreserved_quoted hs hsrc h

/-- The argument that the parser makes of an assignment has the bytes of its source. -/
theorem strToBytes_name (hname : isName name = true) :
    strToBytes (name ++ ['=']) = ShellBytes.ofText name ++ [0x3D] := by
  have hascii : Ascii.isAscii (name ++ ['=']) = true := by
    rw [Ascii.isAscii, all_append]
    exact Bool.and_eq_true_iff.mpr ⟨ascii_of_isName hname, rfl⟩
  calc strToBytes (name ++ ['='])
      = strToBytes (bytesToStr (Utf8.encode (name ++ ['=']))) := by rw [bytesToStr_encode hascii]
    _ = Utf8.encode (name ++ ['=']) := strToBytes_bytesToStr _
    _ = ShellBytes.ofText name ++ [0x3D] := by rw [Utf8.encode_append]; rfl

/-- **An assignment** is read as the word with a quoted `=` is, if and only if it stands
for an argument behind the first word of a command. -/
theorem readAlike_iff {source : ShellBytes} {command : ParseM Command} {looked : Bool}
    {position : WordPosition} (hsource : s.lexer.src = bytesToStr source)
    (hs : s.lexer.pushback = none) (hword : position.tokenAt env rounds looked s =
      some (.ok (.Assignment name value, span), t)) :
    ReadAlike (position.readFrom env rounds command looked s)
        (position.readFrom env rounds command looked s.quoted) ↔
      position.isArgument = true := by
  have hsrc : IsShellText s.lexer.src := by
    rw [hsource]
    exact .bytesToStr source
  obtain ⟨hname, t', hword', hsame⟩ := tokenAt_quoted hs hsrc hword
  obtain ⟨v, hread, htake⟩ :
      ∃ v, position.readFrom env rounds command looked s =
        position.readWordAt env rounds command v ∧ _ := WordPosition.readFrom_eq hword
  obtain ⟨v', hread', htake'⟩ :
      ∃ v, position.readFrom env rounds command looked s.quoted =
        position.readWordAt env rounds command v ∧ _ := WordPosition.readFrom_eq hword'
  obtain ⟨u', hrun', hu'⟩ :
      ∃ u, position.readWordAt env rounds command v' = _ ∧ _ := WordPosition.readWordAt_word htake'
  rw [hread, hread', hrun']
  cases hposition : position.isArgument with
  | true =>
    rw [hu' hposition]
    cases position with
    | argument acc hargs =>
      rw [WordPosition.readWordAt_argument htake, strToBytes_name hname]
      exact iff_of_true ⟨.some _ _, hsame⟩ rfl
    | forElement | caseSubject | casePattern | redirTarget | hereDelimiter => cases hposition
  | false =>
    refine iff_of_false (fun h => ?_) nofun
    obtain ⟨u, hrun, rfl⟩ | ⟨e, u, hrun⟩ :
        (∃ u, position.readWordAt env rounds command v = _ ∧ _) ∨
          ∃ e u, position.readWordAt env rounds command v = _ :=
      WordPosition.readWordAt_assignment hposition htake
    · rw [hrun] at h
      cases h.1
    · rw [hrun] at h
      exact h

end

/-- Behind a word `e`. -/
def afterE : WordPosition := .argument { args := [{ parts := [.Literal [0x65]] }] } rfl

/-- In `e > a=b` the target is refused, and not in `e > a\=b`. -/
theorem assignment_is_no_target :
    ¬ ReadAlike
      (WordPosition.redirTarget.readFrom .plain 8 Process.diverge false
        (.ofText [' ', 'a', '=', 'b']))
      (WordPosition.redirTarget.readFrom .plain 8 Process.diverge false
        (.ofText [' ', 'a', '\\', '=', 'b'])) := by
  have hrefused : ∃ e t, WordPosition.redirTarget.readFrom .plain 8 Process.diverge false
      (.ofText [' ', 'a', '=', 'b']) = some (.error e, t) := ⟨_, _, rfl⟩
  have htaken : ∃ parts t, WordPosition.redirTarget.readFrom .plain 8 Process.diverge false
      (.ofText [' ', 'a', '\\', '=', 'b']) = some (.ok parts, t) := ⟨_, _, rfl⟩
  obtain ⟨e, t, hrefused⟩ := hrefused
  obtain ⟨parts, t', htaken⟩ := htaken
  rw [hrefused, htaken]
  exact id

/-- In `e a=b` the argument is a word. -/
theorem readAlike_iff_argument :
    ReadAlike
        (afterE.readFrom .plain 8 Process.diverge false (.ofText [' ', 'a', '=', 'b']))
        (afterE.readFrom .plain 8 Process.diverge false (.ofText [' ', 'a', '\\', '=', 'b'])) ↔
      afterE.isArgument = true := by
  have hword : ∃ t, afterE.tokenAt .plain 8 false (.ofText [' ', 'a', '=', 'b']) =
      some (.ok (.Assignment ['a'] [.Literal [0x62]], ⟨1, 1, 2⟩), t) := ⟨_, rfl⟩
  obtain ⟨t, hword⟩ := hword
  have hsource : [' ', 'a', '=', 'b'] = bytesToStr [0x20, 0x61, 0x3D, 0x62] := by decide
  exact readAlike_iff hsource rfl hword

end Ish.Epsh
