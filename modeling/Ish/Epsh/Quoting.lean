import Ish.Epsh.Lexer
import Ish.Epsh.Units

/-!
# Quoting and the lexer

What the lexer reads of a text that has been quoted: in double quotes with a backslash
before each character that is special there, in single quotes, and with a backslash
before every character. A line continuation is removed wherever the lexer looks at a
character, also where its backslash is itself escaped.
-/

namespace Ish.Epsh

open Ish.Lib List Option
open Process (bind_ok)

variable {α β : Type}

/-! ## Readings -/

/-- A line continuation comes next. -/
def atContinuation : List Char → Bool
  | '\\' :: '\n' :: _ => true
  | _ => false

variable {c : Char} {src : List Char}

theorem atContinuation_cons (h : c = '\\' → src.head? ≠ some '\n') :
    atContinuation (c :: src) = false := by
  unfold atContinuation
  split
  · rename_i heq
    obtain ⟨hc, hsrc⟩ := List.cons.inj heq
    exact absurd (congrArg List.head? hsrc) (h hc)
  · rfl

/-- From any state with the source `src`, `x` returns `a` and leaves `rest`. -/
def Reads (x : LexM α) (src : List Char) (a : α) (rest : List Char) : Prop :=
  ∀ s : LexerState, s.src = src → ∃ t, x s = some (.ok a, t) ∧ t.src = rest

namespace Reads

variable {x : LexM α} {f : α → LexM β} {src mid rest : List Char} {a : α} {b : β}

theorem pure (a : α) : Reads (pure a : LexM α) src a src := fun s hs => ⟨s, rfl, hs⟩

theorem bind (hx : Reads x src a mid) (hf : Reads (f a) mid b rest) :
    Reads (x >>= f) src b rest := by
  intro s hs
  obtain ⟨t, hrun, ht⟩ := hx s hs
  obtain ⟨u, hrun', hu⟩ := hf t ht
  exact ⟨u, (bind_ok hrun).trans hrun', hu⟩

theorem ite_pos {p : Prop} [Decidable p] (hp : p) (hx : Reads x src a rest) :
    Reads (if p then x else y) src a rest := by
  rwa [if_pos hp]

theorem ite_neg {p : Prop} [Decidable p] (hp : ¬p) (hx : Reads x src a rest) :
    Reads (if p then y else x) src a rest := by
  rwa [if_neg hp]

end Reads

theorem atChar_eq {s : LexerState} (h : atContinuation s.src = false) : s.atChar = s := by
  unfold LexerState.atChar
  unfold LexerState.skipContinuations
  split
  · rename_i heq
    rw [heq] at h
    cases h
  · rfl

theorem reads_peek (h : atContinuation src = false) : Reads peekChar src src.head? src := by
  intro s hs
  have hat : s.atChar = s := atChar_eq (hs ▸ h)
  refine ⟨s, ?_, hs⟩
  change some (Ending.ok s.atChar.src.head?, s.atChar) = _
  rw [hat, hs]

theorem src_advanced (s : LexerState) : s.advanced.src = s.src.tail := by
  unfold LexerState.advanced
  cases hs : s.src with
  | nil => simp [hs]
  | cons c src =>
    dsimp only
    split_ifs <;> rfl

theorem reads_advanceRaw (c : Char) (src : List Char) :
    Reads advanceRaw (c :: src) (some c) src := by
  intro s hs
  refine ⟨s.advanced, ?_, by rw [src_advanced, hs, tail_cons]⟩
  change some (Ending.ok s.src.head?, s.advanced) = _
  rw [hs]
  rfl

theorem reads_advance (h : atContinuation (c :: src) = false) :
    Reads advance (c :: src) (some c) src :=
  .bind (reads_peek h) (reads_advanceRaw c src)

theorem reads_skip (h : atContinuation (c :: src) = false) : Reads skipChar (c :: src) () src :=
  .bind (reads_advance h) (.pure ())

/-! ## Words one character at a time -/

section

variable (nested : Nested) (span : Span) {src rest : List Char} {acc acc' : WordAcc}

theorem reads_round (hcontinuation : atContinuation (c :: src) = false)
    (hends : endsWord ctx in_dquote acc c = false) (hbrace : ¬ (ctx = .Brace ∧ c = '}'))
    (hpart : Reads (readWordPart nested span ctx in_dquote n acc c) (c :: src) acc' mid)
    (hloop : Reads (readWordLoop nested span ctx in_dquote n acc') mid result rest) :
    Reads (readWordLoop nested span ctx in_dquote (n + 1) acc) (c :: src) result rest := by
  unfold readWordLoop
  refine .bind (reads_peek hcontinuation) ?_
  dsimp only [head?_cons]
  exact .ite_neg (by simp [hends]) (.ite_neg hbrace (.bind hpart hloop))

theorem reads_end (n : Nat) (hcontinuation : atContinuation src = false)
    (hends : ∀ c ∈ src.head?, endsWord .Word in_dquote acc c = true) :
    Reads (readWordLoop nested span .Word in_dquote (n + 1) acc) src acc.result src := by
  unfold readWordLoop
  refine .bind (reads_peek hcontinuation) ?_
  cases src with
  | nil => exact .ite_neg nofun (.pure _)
  | cons c src => exact .ite_pos (hends c rfl) (.pure _)

/-- Characters that only stand for themselves in double quotes. -/
def isDquotePlain (c : Char) : Bool := !(c == '"' || c == '\\' || c == '$' || c == '`')

theorem reads_plain (n : Nat) (hplain : isDquotePlain c = true) :
    Reads (readWordPart nested span .Word true (n + 1) acc c) (c :: src) (acc.push c) src := by
  have hskip : ∀ {c : Char}, c ≠ '\\' → Reads skipChar (c :: src) () src := fun hc =>
    reads_skip (atContinuation_cons fun h => absurd h hc)
  unfold readWordPart
  split
  · rename_i heq
    cases heq
  · cases hplain
  · exact .ite_pos rfl (.bind (hskip (by decide)) (.pure _))
  · cases hplain
  · cases hplain
  · cases hplain
  · rename_i hescape _ _
    exact .bind (hskip hescape) (.ite_neg (by simp) (.pure _))

theorem reads_escaped (n : Nat) (hacc : acc.had_quoting = true)
    (hspecial : isDquotePlain c = false) (hnext : c = '\\' → src.head? ≠ some '\n') :
    Reads (readWordPart nested span .Word true (n + 1) acc '\\') ('\\' :: c :: src) (acc.push c)
      src := by
  have hnewline : c ≠ '\n' := by
    rintro rfl
    cases hspecial
  have hescaped : isDquoteEscaped c = true := by
    simp only [isDquotePlain, Bool.not_eq_false', Bool.or_eq_true] at hspecial
    simp only [isDquoteEscaped, Bool.or_eq_true]
    tauto
  have hquoting : acc.quoting = acc := by rw [WordAcc.quoting, ← hacc]
  have hfirst : atContinuation ('\\' :: c :: src) = false :=
    atContinuation_cons fun _ h => hnewline (Option.some.inj h)
  have hread : Reads (readDquoteEscape .Word acc) (c :: src) (acc.push c) src := by
    unfold readDquoteEscape
    refine .bind (reads_advance (atContinuation_cons hnext)) ?_
    dsimp only
    refine .ite_neg (fun h => nomatch h.1) (.ite_pos hescaped ?_)
    rw [if_neg hnewline]
    exact .pure _
  have hpart : readWordPart nested span .Word true (n + 1) acc '\\' =
      (skipChar >>= fun _ => readDquoteEscape .Word acc.quoting) := rfl
  rw [hpart, hquoting]
  exact .bind (reads_skip hfirst) hread

/-- A text with a backslash before each character that is special in double quotes. -/
def dquoteEscape (text : Text) : Text :=
  text.flatMap fun c => if isDquotePlain c then [c] else ['\\', c]

theorem dquoteEscape_cons (c : Char) (text : Text) :
    dquoteEscape (c :: text) =
      (if isDquotePlain c then [c] else ['\\', c]) ++ dquoteEscape text :=
  List.flatMap_cons

theorem dquoteEscape_head {text tail : Text} (h : text.head? ≠ some '\n') :
    (dquoteEscape text ++ '"' :: tail).head? ≠ some '\n' := by
  cases text with
  | nil => exact nofun
  | cons c text =>
    rw [dquoteEscape_cons]
    split
    · exact h
    · exact nofun

/-- The text in double quotes, up to the closing quote. -/
theorem reads_dquoteText (acc : WordAcc) {text : Text} (hbreak : ¬ ['\\', '\n'] <:+: text) (n : Nat)
    (hn : text.length < n) (hacc : acc.had_quoting = true) :
    Reads (readWordLoop nested span .Word true n acc) (dquoteEscape text ++ '"' :: rest)
      { acc with literal := acc.literal ++ text }.result ('"' :: rest) := by
  induction text generalizing acc n with
  | nil =>
    obtain ⟨n, rfl⟩ := Nat.exists_eq_add_one.mpr hn
    rw [append_nil]
    refine reads_end nested span n (atContinuation_cons nofun) ?_
    intro c hc
    cases hc
    rfl
  | cons c text ih =>
    obtain ⟨n, rfl⟩ := Nat.exists_eq_add_one.mpr (Nat.zero_lt_of_lt hn)
    have hn' : text.length < n := Nat.lt_of_succ_lt_succ hn
    obtain ⟨n, rfl⟩ := Nat.exists_eq_add_one.mpr (Nat.zero_lt_of_lt hn')
    rw [infix_cons_iff, not_or] at hbreak
    have hnext (hc : c = '\\') : (dquoteEscape text ++ '"' :: rest).head? ≠ some '\n' := by
      refine dquoteEscape_head fun hhead => hbreak.1 ?_
      obtain ⟨tail, rfl⟩ := List.head?_eq_some_iff.mp hhead
      rw [hc]
      exact ⟨tail, rfl⟩
    have hrest := ih (acc.push c) hbreak.2 (n + 1) hn' hacc
    have hliteral : (acc.push c).literal ++ text = acc.literal ++ c :: text := by
      rw [WordAcc.push, List.append_assoc, List.singleton_append]
    rw [show ({ acc.push c with literal := (acc.push c).literal ++ text } : WordAcc) =
      { acc with literal := acc.literal ++ c :: text } by rw [hliteral]; rfl] at hrest
    rw [dquoteEscape_cons]
    cases hplain : isDquotePlain c with
    | true =>
      have hquote : c ≠ '"' := fun h => by rw [h] at hplain; cases hplain
      have hescape : c ≠ '\\' := fun h => by rw [h] at hplain; cases hplain
      exact reads_round nested span (atContinuation_cons fun h => absurd h hescape)
        (by simpa [endsWord] using hquote) (fun h => nomatch h.1)
        (reads_plain nested span n hplain) hrest
    | false =>
      have hnewline : c ≠ '\n' := fun h => by rw [h] at hplain; cases hplain
      exact reads_round nested span
        (atContinuation_cons fun _ h => hnewline (some.inj h)) rfl
        (fun h => nomatch h.1) (reads_escaped nested span n hacc hplain hnext) hrest

/-- The parts of a text without expansions in double quotes. -/
def plainParts (text : Text) : List WordPart :=
  if text.isEmpty then [] else [.Literal (strToBytes text)]

theorem result_plainParts (text : Text) (had_quoting : Bool) :
    ({ literal := text, had_quoting } : WordAcc).result = (plainParts text, had_quoting) := by
  cases text with
  | nil => rfl
  | cons c text => rfl

theorem reads_dquoteParts {text : Text} (hbreak : ¬ ['\\', '\n'] <:+: text) (n : Nat)
    (hn : text.length < n) :
    Reads (readDquoteParts nested span (n + 1)) (dquoteEscape text ++ '"' :: rest)
      (plainParts text) rest := by
  have htext := @reads_dquoteText nested span rest { had_quoting := true } text hbreak n hn rfl
  rw [List.nil_append, result_plainParts] at htext
  have hquote : atContinuation ('"' :: rest) = false := atContinuation_cons nofun
  unfold readDquoteParts
  refine .bind htext (.bind (reads_peek hquote) ?_)
  exact .bind (reads_skip hquote) (.pure _)

/-! ## Whole words -/

/-- The source goes on with the end of a word. -/
def WordEnds (src : List Char) : Prop := ∀ c ∈ src.head?, isWordEnd c = true

theorem WordEnds.not_continuation (h : WordEnds src) : atContinuation src = false := by
  cases src with
  | nil => rfl
  | cons c src =>
    refine atContinuation_cons ?_
    rintro rfl
    cases h _ rfl

theorem WordEnds.reads_end (acc : WordAcc) (h : WordEnds src) (n : Nat) :
    Reads (readWordLoop nested span .Word false (n + 1) acc) src acc.result src :=
  Epsh.reads_end nested span n h.not_continuation fun c hc => by
    simp [endsWord, h c hc]

theorem reads_dquoted {text : Text} (hbreak : ¬ ['\\', '\n'] <:+: text) (hrest : WordEnds rest)
    (n : Nat) (hn : text.length < n) :
    Reads (readWordLoop nested span .Word false (n + 3) { had_quoting := false })
      ('"' :: dquoteEscape text ++ '"' :: rest) ([.DoubleQuoted (plainParts text)], true) rest := by
  have hcontinuation {src : List Char} : atContinuation ('"' :: src) = false :=
    atContinuation_cons nofun
  have hend := hrest.reads_end nested span
    { parts := [.DoubleQuoted (plainParts text)], had_quoting := true } (n + 1)
  refine reads_round nested span hcontinuation rfl (fun h => nomatch h.1) ?_ hend
  have hpart : readWordPart nested span .Word false (n + 2) { had_quoting := false } '"' =
      (skipChar >>= fun _ => readDquoteParts nested span (n + 1) >>= fun inner =>
        pure (({ had_quoting := false } : WordAcc).flush.quoting.add (.DoubleQuoted inner))) := rfl
  rw [hpart]
  exact .bind (reads_skip hcontinuation) (.bind (reads_dquoteParts nested span hbreak n hn) (.pure _))

theorem reads_singleQuoted (content : Text) {text : Text} (hquote : '\'' ∉ text) (n : Nat)
    (hn : text.length < n) :
    Reads (readSingleQuoted span n content) (text ++ '\'' :: rest) (content ++ text) rest := by
  induction text generalizing content n with
  | nil =>
    obtain ⟨n, rfl⟩ := Nat.exists_eq_add_one.mpr hn
    rw [append_nil]
    exact .bind (reads_advanceRaw '\'' rest) (.pure _)
  | cons c text ih =>
    obtain ⟨n, rfl⟩ := Nat.exists_eq_add_one.mpr (Nat.zero_lt_of_lt hn)
    rw [mem_cons, not_or] at hquote
    have htail := ih (content ++ [c]) hquote.2 n (Nat.lt_of_succ_lt_succ hn)
    rw [append_assoc, singleton_append] at htail
    unfold readSingleQuoted
    refine .bind (reads_advanceRaw c _) ?_
    split
    · rename_i heq
      cases heq
    · rename_i heq
      exact absurd (some.inj heq).symm hquote.1
    · rename_i heq
      rw [← some.inj heq]
      exact htail

theorem reads_squoted {text : Text} (hquote : '\'' ∉ text) (hrest : WordEnds rest)
    (n : Nat) (hn : text.length < n) :
    Reads (readWordLoop nested span .Word false (n + 2) { had_quoting := false })
      ('\'' :: text ++ '\'' :: rest) ([.SingleQuoted (strToBytes text)], true) rest := by
  have hend := hrest.reads_end nested span
    { parts := [.SingleQuoted (strToBytes text)], had_quoting := true } n
  refine reads_round nested span (atContinuation_cons nofun) rfl (fun h => nomatch h.1) ?_ hend
  have hpart : readWordPart nested span .Word false (n + 1) { had_quoting := false } '\'' =
      (advanceRaw >>= fun _ => readSingleQuoted span n [] >>= fun content =>
        pure (({ had_quoting := false } : WordAcc).flush.quoting.add
          (.SingleQuoted (strToBytes content)))) := rfl
  rw [hpart]
  exact .bind (reads_advanceRaw _ _) (.bind (reads_singleQuoted span [] hquote n hn) (.pure _))

/-! ### Escaped characters -/

/-- A character of shell text other than a newline: one that stands for itself, or an
escape and what it encodes. -/
inductive IsUnit : Text → Prop where
  | plain {c : Char} (hc : c ≠ ESCAPE) (hnewline : c ≠ '\n') : IsUnit [c]
  | encoded {c : Char} (hc : c ≠ '\\') : IsUnit [ESCAPE, c]

theorem IsUnit.not_continuation (h : IsUnit unit) (src : List Char) :
    atContinuation ('\\' :: (unit ++ src)) = false := by
  cases h with
  | plain hc hnewline => exact atContinuation_cons fun _ h => hnewline (some.inj h)
  | encoded hc => exact atContinuation_cons fun _ h => absurd (some.inj h) (by decide)

/-- What the lexer makes of escaped characters. -/
def escapedParts (units : List Text) : List WordPart :=
  units.map fun unit => .DoubleQuoted [.Literal (strToBytes unit)]

theorem coalesceFrom_escaped (part : WordPart) (hpart : ∀ s, part ≠ .Literal s)
    (units : List Text) : coalesceFrom part (escapedParts units) = part :: escapedParts units := by
  induction units generalizing part with
  | nil => rfl
  | cons unit units ih =>
    have htail := ih (.DoubleQuoted [.Literal (strToBytes unit)]) nofun
    rw [escapedParts, map_cons, coalesceFrom, ← escapedParts, htail]
    exact fun s _ h => absurd h (hpart s)

theorem coalesceLiterals_escaped (units : List Text) :
    coalesceLiterals (escapedParts units) = escapedParts units := by
  cases units with
  | nil => rfl
  | cons unit units =>
    exact coalesceFrom_escaped (.DoubleQuoted [.Literal (strToBytes unit)]) nofun units

/-- One escaped character. -/
theorem reads_unit {unit} (hunit : IsUnit unit) (hliteral : acc.literal = [])
    (hnext : unit = ['\\'] → src.head? ≠ some '\n') (n : Nat) :
    Reads (readWordPart nested span .Word false (n + 1) acc '\\') ('\\' :: unit ++ src)
      (acc.quoting.add (.DoubleQuoted [.Literal (strToBytes unit)])) src := by
  have hflush : acc.quoting.flush = acc.quoting := by
    unfold WordAcc.flush WordAcc.quoting
    simp [hliteral]
  have hpart : readWordPart nested span .Word false (n + 1) acc '\\' =
      (skipChar >>= fun _ => readEscape .Word acc.quoting) := rfl
  rw [hpart]
  cases hunit with
  | @plain c hc hnewline =>
    have hfirst : atContinuation ('\\' :: c :: src) = false :=
      atContinuation_cons fun _ h => hnewline (some.inj h)
    have hread : atContinuation (c :: src) = false :=
      atContinuation_cons fun h => hnext (by rw [h])
    refine .bind (reads_skip hfirst) (.bind (reads_advance hread) ?_)
    dsimp only
    refine .ite_neg nofun ?_
    rw [hflush, if_neg hc]
    exact .pure _
  | @encoded c hc =>
    have hfirst : atContinuation ('\\' :: ESCAPE :: c :: src) = false :=
      atContinuation_cons fun _ h => absurd (some.inj h) (by decide)
    have hescape : atContinuation (ESCAPE :: c :: src) = false :=
      atContinuation_cons fun h => absurd h (by decide)
    have hread : atContinuation (c :: src) = false :=
      atContinuation_cons fun h => absurd h hc
    refine .bind (reads_skip hfirst) (.bind (reads_advance hescape) ?_)
    dsimp only
    refine .ite_neg nofun ?_
    rw [hflush, if_pos rfl]
    exact .bind (reads_advance hread) (.pure _)

/-- The characters of a word, each behind a backslash. -/
theorem reads_units (acc : WordAcc) {units : List Text} (hunits : ∀ unit ∈ units, IsUnit unit)
    (hrest : WordEnds rest) (hlast : units.getLast? = some ['\\'] → rest.head? ≠ some '\n')
    (n : Nat) (hn : units.length < n) (hliteral : acc.literal = []) :
    Reads (readWordLoop nested span .Word false n acc)
      (units.flatMap (fun unit => '\\' :: unit) ++ rest)
      (coalesceLiterals (acc.parts ++ escapedParts units), acc.had_quoting || !units.isEmpty)
      rest := by
  induction units generalizing acc n with
  | nil =>
    obtain ⟨n, rfl⟩ := Nat.exists_eq_add_one.mpr hn
    have hend := hrest.reads_end nested span acc n
    have hresult : acc.result = (coalesceLiterals (acc.parts ++ escapedParts []),
        acc.had_quoting || !([] : List Text).isEmpty) := by
      rw [WordAcc.result, WordAcc.flush, if_pos (by rw [hliteral]; rfl)]
      simp [escapedParts]
    rw [← hresult]
    exact hend
  | cons unit units ih =>
    obtain ⟨n, rfl⟩ := Nat.exists_eq_add_one.mpr (Nat.zero_lt_of_lt hn)
    have hn' : units.length < n := Nat.lt_of_succ_lt_succ hn
    obtain ⟨n, rfl⟩ := Nat.exists_eq_add_one.mpr (Nat.zero_lt_of_lt hn')
    have hunit := hunits unit mem_cons_self
    -- what follows this character is a backslash, or the end of the word
    have hnext (hbackslash : unit = ['\\']) :
        (units.flatMap (fun unit => '\\' :: unit) ++ rest).head? ≠ some '\n' := by
      cases units with
      | nil => exact hlast (by rw [hbackslash]; rfl)
      | cons _ _ => exact nofun
    have hlast' (hl : units.getLast? = some ['\\']) : rest.head? ≠ some '\n' := by
      cases units with
      | nil => cases hl
      | cons _ _ => exact hlast hl
    have htail := ih (acc.quoting.add (.DoubleQuoted [.Literal (strToBytes unit)]))
      (fun u hu => hunits u (mem_cons_of_mem _ hu)) hlast' (n + 1) hn' hliteral
    have hresult : (coalesceLiterals ((acc.quoting.add
          (.DoubleQuoted [.Literal (strToBytes unit)])).parts ++ escapedParts units),
        (acc.quoting.add (.DoubleQuoted [.Literal (strToBytes unit)])).had_quoting ||
          !units.isEmpty) =
        (coalesceLiterals (acc.parts ++ escapedParts (unit :: units)),
          acc.had_quoting || !(unit :: units).isEmpty) := by
      simp [WordAcc.add, WordAcc.quoting, escapedParts]
    rw [hresult] at htail
    rw [flatMap_cons, append_assoc]
    have hcontinuation := hunit.not_continuation
      (units.flatMap (fun unit => '\\' :: unit) ++ rest)
    exact reads_round nested span hcontinuation (by simp [endsWord, isWordEnd])
      (fun h => nomatch h.1) (reads_unit nested span hunit hliteral hnext n) htail

end

/-! ## Tokens -/

/-- The bytes that quoted parts stand for; none if anything is expanded. -/
def literalBytes : List WordPart → Option ShellBytes
  | [] => some []
  | .Literal s :: parts => (literalBytes parts).map (s ++ ·)
  | _ => none

/-- The bytes of a word all of which is quoted: nothing in it is expanded, split or
matched against file names. -/
def quotedBytes : List WordPart → Option ShellBytes
  | [] => some []
  | .SingleQuoted s :: parts => (quotedBytes parts).map (s ++ ·)
  | .DoubleQuoted inner :: parts =>
    (literalBytes inner).bind fun s => (quotedBytes parts).map (s ++ ·)
  | _ => none

section

variable (nested : Nested)

theorem scanToken_word
    (hs : s.src = c :: src) (hc : c = '"' ∨ c = '\'' ∨ c = '\\')
    (hcontinuation : atContinuation (c :: src) = false) :
    ∃ span t, t.src = c :: src ∧ scanToken nested (n + 1) s = readWord nested (n + 1) span t := by
  have hpeek := reads_peek hcontinuation
  have hblanks : Reads (skipBlanks (n + 1)) (c :: src) () (c :: src) := by
    unfold skipBlanks
    refine .bind hpeek ?_
    rcases hc with rfl | rfl | rfl <;> exact .pure _
  have hoperator : Reads tryOperator (c :: src) none (c :: src) := by
    unfold tryOperator
    refine .bind hpeek ?_
    rcases hc with rfl | rfl | rfl <;> exact .pure _
  obtain ⟨t, hrun, ht⟩ := hblanks s hs
  obtain ⟨u, hrun', hu⟩ := hpeek t ht
  obtain ⟨v, hrun'', hv⟩ := hoperator u hu
  refine ⟨t.span, v, hv, (bind_ok hrun).trans ?_⟩
  refine (bind_ok (s := t) (a := t.span) rfl).trans ?_
  refine (bind_ok hrun').trans ?_
  rcases hc with rfl | rfl | rfl <;> exact bind_ok hrun''

theorem scanToken_quoted {src rest parts}
    {part had_quoting n s} (hs : s.src = c :: src)
    (hc : c = '"' ∨ c = '\'' ∨ c = '\\') (hcontinuation : atContinuation (c :: src) = false)
    (hpart : ∀ s, part ≠ .Literal s)
    (hword : ∀ span, Reads (readWordLoop nested span .Word false (n + 1) { had_quoting := false })
      (c :: src) (part :: parts, had_quoting) rest) :
    ∃ span t, scanToken nested (n + 1) s = some (.ok (.Word (part :: parts) had_quoting, span), t) ∧
      t.src = rest := by
  have htoken (recognize_reserved : Bool) :
      tokenOfWord recognize_reserved (part :: parts) had_quoting =
        .Word (part :: parts) had_quoting := by
    cases part with
    | Literal s => exact absurd rfl (hpart s)
    | _ => cases recognize_reserved <;> rfl
  obtain ⟨span, t, ht, hscan⟩ := scanToken_word nested (n := n) hs hc hcontinuation
  obtain ⟨u, hrun, hu⟩ := hword span t ht
  refine ⟨span, u, hscan.trans ((bind_ok hrun).trans ?_), hu⟩
  change some (Ending.ok (tokenOfWord u.recognize_reserved (part :: parts) had_quoting, span), u) = _
  rw [htoken]

end

end Ish.Epsh
