import Ish.Editor.Completion
import Ish.Epsh.AssignmentWords
import Ish.Epsh.QuotedWords

/-!
# Completed names — what the shell reads of an inserted candidate

The lexer reads a name in quotes as the name it is. Without quotes it takes a tilde in
front for a home directory, some names for assignments or reserved words, and a newline
for the end of the word; `needs_quoting` knows of none of these.
-/

namespace Ish.Editor

open Ish.Lib Ish.Epsh List Utf8
open Process (bind_eq_ok bind_ok)

/-! ## Shell text of names -/

theorem bytesToStr_encode_text (text : List Char) :
    bytesToStr (encode text) = pushText text true := by
  induction text with
  | nil => rfl
  | cons c text ih => rw [encode_cons, bytesToStr_char, ih, pushText, pushText, pushText,
      ← flatMap_append, singleton_append]

theorem pushText_append (text more : List Char) :
    pushText (text ++ more) true = pushText text true ++ pushText more true :=
  flatMap_append

theorem strToBytes_pushText (text : List Char) :
    strToBytes (pushText text true) = encode text := by
  rw [← bytesToStr_encode_text, strToBytes_bytesToStr]

variable {text : List Char} {c : Char}

/-- A character of shell text is one of the name, or escapes one. -/
theorem mem_pushText (h : c ∈ pushText text true) : c ∈ text ∨ c = ESCAPE := by
  obtain ⟨d, hd, hc⟩ := mem_flatMap.mp h
  split at hc
  · rcases mem_pair.mp hc with rfl | rfl
    · exact .inr rfl
    · exact .inl hd
  · rw [mem_singleton.mp hc]
    exact .inl hd

/-! ## Words without quotes -/

/-- Characters that stand for themselves in a word, except for a tilde in front. -/
def IsBare (text : Text) : Prop :=
  ∀ c ∈ text, isPlainChar c = true ∧ isWordEnd c = false ∧ c ≠ '#'

theorem IsBare.of_cons {text : Text} (h : IsBare (c :: text)) : IsBare text :=
  fun d hd => h d (mem_cons_of_mem c hd)

theorem IsBare.not_continuation {text} (h : IsBare text) {rest : Text}
    (hrest : atContinuation rest = false) : atContinuation (text ++ rest) = false := by
  cases text with
  | nil => exact hrest
  | cons c text =>
    refine atContinuation_cons fun hc => ?_
    have hplain := (h c mem_cons_self).1
    rw [hc] at hplain
    cases hplain

section

variable (nested : Nested) (span : Span) {acc : WordAcc} {text rest : Text}

/-- A character that is pushed. -/
theorem reads_bareChar (n : Nat) (hc : isPlainChar c = true)
    (hrest : atContinuation (c :: rest) = false) (htilde : acc.isBlank = true → c ≠ '~') :
    Reads (readWordPart nested span .Word false (n + 1) acc c) (c :: rest) (acc.push c) rest := by
  rw [readWordPart_plain nested span n acc hc]
  refine .bind (reads_skip hrest) (.ite_neg ?_ (.pure _))
  rintro ⟨rfl, -, -, hblank⟩
  exact htilde hblank rfl

theorem reads_bare (n : Nat) (acc : WordAcc) (htext : IsBare text) (hrest : WordEnds rest)
    (hn : text.length + 1 < n) (htilde : acc.isBlank = true → text.head? ≠ some '~') :
    Reads (readWordLoop nested span .Word false n acc) (text ++ rest)
      ({ acc with literal := acc.literal ++ text } : WordAcc).result rest := by
  induction text generalizing acc n with
  | nil =>
    obtain ⟨n, rfl⟩ := Nat.exists_eq_add_one.mpr (Nat.zero_lt_of_lt hn)
    rw [append_nil]
    exact hrest.reads_end nested span acc n
  | cons c text ih =>
    obtain ⟨n, rfl⟩ := Nat.exists_eq_add_one.mpr (Nat.zero_lt_of_lt hn)
    have hn' : text.length + 1 < n := Nat.lt_of_succ_lt_succ hn
    obtain ⟨n, rfl⟩ := Nat.exists_eq_add_one.mpr (Nat.zero_lt_of_lt hn')
    obtain ⟨hplain, hend, hcomment⟩ := htext c mem_cons_self
    have hcontinuation : atContinuation (c :: (text ++ rest)) = false :=
      htext.not_continuation hrest.not_continuation
    have hpushed : (acc.push c).isBlank = false := by simp [WordAcc.push, WordAcc.isBlank]
    have htail := ih (n + 1) (acc.push c) htext.of_cons hn'
      fun h => absurd (hpushed.symm.trans h) (by rintro ⟨⟩)
    have hliteral : (acc.push c).literal ++ text = acc.literal ++ c :: text := by
      rw [WordAcc.push, append_assoc, singleton_append]
    rw [hliteral] at htail
    refine reads_round nested span hcontinuation ?_ (fun h => by cases h.1)
      (reads_bareChar nested span n hplain hcontinuation
        fun h hc => htilde h (congrArg some hc)) htail
    simp [endsWord, hend, hcomment]

theorem reads_takeChars (n : Nat) (taken : Text) {more : Text}
    (hp : ∀ c ∈ more, p c = true ∧ c ≠ '\\') (hrest : ∀ c ∈ rest.head?, p c = false)
    (hcontinuation : atContinuation rest = false) (hn : more.length < n) :
    Reads (takeChars p n taken) (more ++ rest) (taken ++ more) rest := by
  induction more generalizing n taken with
  | nil =>
    obtain ⟨n, rfl⟩ := Nat.exists_eq_add_one.mpr hn
    rw [append_nil, nil_append]
    unfold takeChars
    refine .bind (reads_peek hcontinuation) ?_
    cases rest with
    | nil => exact .pure _
    | cons c rest => exact .ite_neg (by simp [hrest c rfl]) (.pure _)
  | cons c more ih =>
    obtain ⟨n, rfl⟩ := Nat.exists_eq_add_one.mpr (Nat.zero_lt_of_lt hn)
    have hc : atContinuation (c :: (more ++ rest)) = false :=
      atContinuation_cons fun h => absurd h (hp c mem_cons_self).2
    have htail := ih n (taken ++ [c]) (fun d hd => hp d (mem_cons_of_mem c hd))
      (Nat.lt_of_succ_lt_succ hn)
    rw [append_assoc, singleton_append] at htail
    unfold takeChars
    exact .bind (reads_peek hc)
      (.ite_pos (hp c mem_cons_self).1 (.bind (reads_skip hc) htail))

theorem reads_tilde (n : Nat) {user : Text} (hblank : acc.isBlank = true)
    (huser : ∀ c ∈ user, endsUser c = false ∧ c ≠ '\\')
    (hrest : ∀ c ∈ rest.head?, endsUser c = true) (hcontinuation : atContinuation rest = false)
    (hn : user.length < n) :
    Reads (readWordPart nested span .Word false (n + 1) acc '~') ('~' :: (user ++ rest))
      (acc.add (.Tilde (strToBytes user))) rest := by
  rw [readWordPart_plain nested span n acc rfl]
  refine .bind (reads_skip (atContinuation_cons nofun)) (.ite_pos ⟨rfl, rfl, rfl, hblank⟩ ?_)
  have htake := @reads_takeChars rest (fun c => !endsUser c) n [] user
    (fun c hc => by simpa using huser c hc) (fun c hc => by simp [hrest c hc]) hcontinuation hn
  exact .bind htake (.pure _)

/-- What a bare word is read as. -/
def barePart : Text → List WordPart
  | '~' :: text =>
    .Tilde (strToBytes (text.takeWhile fun c => !endsUser c)) ::
      plainParts (text.dropWhile fun c => !endsUser c)
  | text => plainParts text

theorem barePart_plain (h : text.head? ≠ some '~') :
    barePart text = plainParts text := by
  unfold barePart
  split
  · exact absurd rfl h
  · rfl

theorem endsUser_of_isWordEnd (h : isWordEnd c = true) : endsUser c = true := by
  simp only [isWordEnd, Bool.or_eq_true, beq_iff_eq] at h
  rcases h with ((((((((rfl | rfl) | rfl) | rfl) | rfl) | rfl) | rfl) | rfl) | rfl) | rfl
  all_goals rfl

/-- **A bare word** is its own text, apart from a tilde in front. -/
theorem reads_bareWord (n : Nat) (htext : IsBare text) (hrest : WordEnds rest)
    (hn : text.length + 2 < n) :
    Reads (readWordLoop nested span .Word false n { had_quoting := false }) (text ++ rest)
      (barePart text, false) rest := by
  by_cases htilde : text.head? = some '~'
  · obtain ⟨text, rfl⟩ := head?_eq_some_iff.mp htilde
    obtain ⟨n, rfl⟩ := Nat.exists_eq_add_one.mpr (Nat.zero_lt_of_lt hn)
    have hn' : text.length + 2 < n := Nat.lt_of_succ_lt_succ hn
    obtain ⟨n, rfl⟩ := Nat.exists_eq_add_one.mpr (Nat.zero_lt_of_lt hn')
    have hsplit := takeWhile_append_dropWhile (p := fun c => !endsUser c) (l := text)
    rw [barePart]
    have huser : ∀ c ∈ text.takeWhile fun c => !endsUser c, endsUser c = false ∧ c ≠ '\\' := by
      intro c hc
      have hplain := (htext.of_cons c ((takeWhile_sublist _).subset hc)).1
      refine ⟨by simpa using mem_takeWhile_imp hc, ?_⟩
      rintro rfl
      cases hplain
    have hhead : ∀ c ∈ ((text.dropWhile fun c => !endsUser c) ++ rest).head?,
        endsUser c = true := by
      have hdrop := head?_dropWhile_not (fun c => !endsUser c) text
      intro c hc
      cases hmore : text.dropWhile fun c => !endsUser c with
      | nil =>
        rw [hmore, nil_append] at hc
        exact endsUser_of_isWordEnd (hrest c hc)
      | cons d more =>
        rw [hmore] at hc hdrop
        cases hc
        simpa using hdrop
    have hmore : IsBare (text.dropWhile fun c => !endsUser c) :=
      fun c hc => htext.of_cons c ((dropWhile_sublist _).subset hc)
    have hlen := congrArg List.length hsplit
    rw [length_append] at hlen
    generalize text.takeWhile (fun c => !endsUser c) = user at *
    generalize text.dropWhile (fun c => !endsUser c) = more at *
    subst hsplit
    have hcontinuation := hmore.not_continuation hrest.not_continuation
    have hpart := @reads_tilde nested span { had_quoting := false } (more ++ rest) n user rfl huser
      hhead hcontinuation (by omega)
    have hloop := reads_bare nested span (n + 1)
      (({ had_quoting := false } : WordAcc).add (.Tilde (strToBytes user))) hmore hrest (by omega)
      nofun
    have hresult (more : Text) : ({ (({ had_quoting := false } : WordAcc).add
        (.Tilde (strToBytes user))) with literal := [] ++ more } : WordAcc).result =
        (.Tilde (strToBytes user) :: plainParts more, false) := by
      cases more <;> rfl
    rw [cons_append, append_assoc, ← hresult more]
    exact reads_round nested span (atContinuation_cons nofun) rfl (fun h => nomatch h.1) hpart hloop
  · have hloop := reads_bare nested span n { had_quoting := false } htext hrest (by omega)
      fun _ => htilde
    rw [barePart_plain htilde, ← result_plainParts]
    exact hloop

end

/-! ## Words in quotes -/

/-- Bytes that match file names outside quotes. -/
def isGlobByte (b : UInt8) : Bool := b == 0x2A || b == 0x3F || b == 0x5B

/-- The bytes that a word stands for; none if something in it is expanded or matched
against file names. -/
def nameBytes : List WordPart → Option ShellBytes
  | [] => some []
  | .Literal s :: parts => if s.any isGlobByte then none else (nameBytes parts).map (s ++ ·)
  | .SingleQuoted s :: parts => (nameBytes parts).map (s ++ ·)
  | .DoubleQuoted inner :: parts =>
    (literalBytes inner).bind fun s => (nameBytes parts).map (s ++ ·)
  | _ => none

theorem escapeQuotes_append (text more : List Char) :
    escapeQuotes (text ++ more) = escapeQuotes text ++ escapeQuotes more :=
  flatMap_append

theorem escapeQuotes_plain (h : '\'' ∉ text) : escapeQuotes text = text := by
  induction text with
  | nil => rfl
  | cons c text ih =>
    rw [mem_cons, not_or] at h
    have htail := ih h.2
    rw [escapeQuotes] at htail ⊢
    rw [flatMap_cons, if_neg (Ne.symm h.1), htail]
    rfl

/-- What is read of a name in quotes. -/
structure QuotedParts (inner : List Char) (parts : List WordPart) : Prop where
  bytes : nameBytes parts = some (encode inner)
  quoted : ∀ part ∈ parts, ∀ s, part ≠ .Literal s
  ne : parts ≠ []

section

variable (nested : Nested) (span : Span) {acc : WordAcc} {text rest : Text}

theorem reads_squotedPart (n : Nat) (hquote : '\'' ∉ text) (hn : text.length < n) :
    Reads (readWordPart nested span .Word false (n + 1) acc '\'') ('\'' :: (text ++ '\'' :: rest))
      (acc.flush.quoting.add (.SingleQuoted (strToBytes text))) rest := by
  have hpart : readWordPart nested span .Word false (n + 1) acc '\'' =
      (advanceRaw >>= fun _ => readSingleQuoted span n [] >>= fun content =>
        pure (acc.flush.quoting.add (.SingleQuoted (strToBytes content)))) := rfl
  rw [hpart]
  exact .bind (reads_advanceRaw _ _) (.bind (reads_singleQuoted span [] hquote n hn) (.pure _))

/-- The word so far, with more parts behind it. -/
def quotedWith (acc : WordAcc) (parts : List WordPart) : WordAcc :=
  { acc.flush with parts := acc.flush.parts ++ parts, had_quoting := true }

theorem literal_flush (acc : WordAcc) : acc.flush.literal = [] := by
  rw [WordAcc.flush_eq]

theorem not_mem_pushText (hc : c ∉ text) (hescape : c ≠ ESCAPE) :
    c ∉ pushText text true := fun h => (mem_pushText h).elim hc hescape

theorem quotedWith_two (acc : WordAcc) (first second : WordPart) (parts : List WordPart) :
    quotedWith ((acc.flush.quoting.add first).quoting.add second) parts =
      quotedWith acc (first :: second :: parts) := by
  have hflush : ((acc.flush.quoting.add first).quoting.add second).flush =
      (acc.flush.quoting.add first).quoting.add second := by
    rw [WordAcc.flush, if_pos]
    change acc.flush.literal.isEmpty = true
    rw [literal_flush]
    rfl
  rw [quotedWith, quotedWith, hflush]
  simp [WordAcc.add, WordAcc.quoting]

omit span in
/-- **A name in quotes**, in which a quote is put behind a backslash, outside them. -/
theorem reads_quotedName (inner : List Char) :
    ∃ parts N, QuotedParts inner parts ∧ ∀ span n, N ≤ n → ∀ acc rest, WordEnds rest →
      Reads (readWordLoop nested span .Word false n acc)
        ('\'' :: (pushText (escapeQuotes inner) true ++ '\'' :: rest))
        (quotedWith acc parts).result rest := by
  have hnext {text : Text} : atContinuation ('\'' :: text) = false := atContinuation_cons nofun
  have hends (acc : WordAcc) : endsWord .Word false acc '\'' = false := rfl
  induction hlen : inner.length using Nat.strongRecOn generalizing inner with
  | ind len ih =>
    by_cases hquote : '\'' ∈ inner
    · obtain ⟨seg, more, rfl, hseg⟩ := eq_append_cons_of_mem hquote
      obtain ⟨parts, N, hparts, hreads⟩ := ih more.length (by simp [← hlen]; omega) more rfl
      refine ⟨.SingleQuoted (encode seg) :: .DoubleQuoted [.Literal [0x27]] :: parts,
        N + (pushText seg true).length + 3, ⟨?_, ?_, nofun⟩, ?_⟩
      · have hquoted : encode (seg ++ '\'' :: more) =
            encode seg ++ ([0x27] ++ encode more) := by
          rw [encode_append]
          rfl
        rw [nameBytes, nameBytes, hparts.bytes, hquoted]
        rfl
      · intro part hpart
        rcases mem_cons.mp hpart with rfl | hpart
        · exact fun _ => nofun
        rcases mem_cons.mp hpart with rfl | hpart
        · exact fun _ => nofun
        · exact hparts.quoted part hpart
      · intro span n hn acc rest hrest
        obtain ⟨n, rfl⟩ := Nat.exists_eq_add_of_le' (show 3 ≤ n by omega)
        have hsrc : pushText (escapeQuotes (seg ++ '\'' :: more)) true ++ '\'' :: rest =
            pushText seg true ++ '\'' :: '\\' :: (['\''] ++
              ('\'' :: (pushText (escapeQuotes more) true ++ '\'' :: rest))) := by
          rw [escapeQuotes_append, escapeQuotes_plain hseg, pushText_append, append_assoc]
          rfl
        rw [hsrc]
        -- up to the quote, and the quote behind its backslash
        refine reads_round nested span hnext (hends acc) (fun h => nomatch h.1)
          (reads_squotedPart nested span (n + 1) (not_mem_pushText hseg (by decide))
            (by omega)) ?_
        have hunit := @reads_unit nested span
          ('\'' :: (pushText (escapeQuotes more) true ++ '\'' :: rest))
          (acc.flush.quoting.add (.SingleQuoted (strToBytes (pushText seg true)))) ['\'']
          (.plain (by decide) (by decide)) (literal_flush acc) nofun n
        refine reads_round nested span (atContinuation_cons fun _ => nofun) rfl
          (fun h => nomatch h.1) hunit ?_
        have htail := hreads span (n + 1) (by omega) ((acc.flush.quoting.add
          (.SingleQuoted (strToBytes (pushText seg true)))).quoting.add
            (.DoubleQuoted [.Literal (strToBytes ['\''])])) rest hrest
        rw [quotedWith_two, strToBytes_pushText] at htail
        rw [strToBytes_pushText]
        exact htail
    · refine ⟨[.SingleQuoted (encode inner)], (pushText inner true).length + 3,
        ⟨by rw [nameBytes, nameBytes]; simp, fun part hpart => ?_, nofun⟩, ?_⟩
      · rw [mem_singleton.mp hpart]
        exact fun _ => nofun
      · intro span n hn acc rest hrest
        obtain ⟨n, rfl⟩ := Nat.exists_eq_add_of_le' (show 2 ≤ n by omega)
        rw [escapeQuotes_plain hquote]
        have hpart := @reads_squotedPart nested span acc (pushText inner true) rest n
          (not_mem_pushText hquote (by decide)) (by omega)
        rw [strToBytes_pushText] at hpart
        exact reads_round nested span hnext (hends acc) (fun h => nomatch h.1) hpart
          (hrest.reads_end nested span _ n)

end

/-! ## Names as tokens -/

section

variable (nested : Nested)

theorem scanToken_startsWord (hs : s.src = c :: src)
    (hend : isWordEnd c = false) (hcomment : c ≠ '#')
    (hcontinuation : atContinuation (c :: src) = false) (hparts : parts ≠ [])
    (hword : ∀ span, Reads (readWordLoop nested span .Word false (n + 1) { had_quoting := false })
      (c :: src) (parts, had_quoting) rest) :
    ∃ span t, scanToken nested (n + 1) s =
      some (.ok (tokenOfWord s.recognize_reserved parts had_quoting, span), t) ∧ t.src = rest := by
  have hpeek : peekChar s = some (.ok (some c), s) := by
    rw [peekChar_eq (hs ▸ hcontinuation), hs]
    rfl
  have hblanks : skipBlanks (n + 1) s = some (.ok (), s) := by
    unfold skipBlanks
    rw [bind_ok hpeek]
    generalize hnext : some c = next
    split
    · rw [Option.some.inj hnext] at hend
      cases hend
    · rw [Option.some.inj hnext] at hend
      cases hend
    · exact absurd (Option.some.inj hnext) hcomment
    · rfl
  have hoperator : tryOperator s = some (.ok none, s) := by
    unfold tryOperator
    rw [bind_ok hpeek]
    generalize hnext : some c = next
    split
    all_goals first
      | rfl
      | (rw [Option.some.inj hnext] at hend; cases hend)
  have hline : ¬ AtLineEnd s.src := by
    rw [hs]
    rintro (h | h)
    · cases h
    · rw [Option.some.inj h] at hend
      cases hend
  obtain ⟨t, hrun, ht⟩ := hword s.span s hs
  have hlater : Later s t := ((reader_words nested s.span (n + 1)).loop _ _ _).readsOn _ _ _ hrun
  refine ⟨s.span, t, ?_, ht⟩
  rw [scanToken_eq_readWord hblanks (hs ▸ hcontinuation) hline hoperator, readWord,
    bind_ok hrun]
  dsimp only
  rw [if_neg (by simpa using hparts), ← hlater.recognize_reserved]
  rfl

theorem scanToken_lineEnd {n s t token span}
    (hs : AtLineEnd s.src) (h : scanToken nested n s = some (.ok (token, span), t)) :
    token = .Eof ∨ token = .Newline := by
  unfold scanToken at h
  obtain ⟨⟨⟩, u, hblanks, h⟩ := bind_eq_ok h
  have hu := skipBlanks_lineEnd hs hblanks
  obtain ⟨-, hcontinuation⟩ := skipBlanks_src hblanks
  obtain ⟨span', v, hspan, h⟩ := bind_eq_ok h
  cases hspan
  rw [bind_ok (peekChar_eq hcontinuation)] at h
  rcases hu with hu | hu
  · rw [hu] at h
    cases h
    exact .inl rfl
  · rw [hu] at h
    obtain ⟨_, w, -, h⟩ := bind_eq_ok h
    cases h
    exact .inr rfl

end

/-- The shell expands a leading `~/`. -/
def hasHome (text : List Char) : Bool := ['~', '/'].isPrefixOf text

/-- The parts of a word stand for the name, where the home directory may be expanded that
the directory of the name starts with. -/
def StandsFor ( dir_prefix inner : List Char) (parts : List WordPart) : Prop :=
  if hasHome dir_prefix then
    ∃ rest, parts = .Tilde [] :: rest ∧ nameBytes rest = some (encode inner.tail)
  else nameBytes parts = some (encode inner)

/-- With fuel enough, the lexer reads the text as one word that stands for the name. -/
def ReadsAsName (nested : Nested) (reserved : Bool) ( dir_prefix inner text : List Char) : Prop :=
  ∃ N, ∀ n, N ≤ n → ∃ parts had_quoting span t,
    nextToken nested n
        { LexerState.newBytes (encode text) with recognize_reserved := reserved } =
      some (.ok (.Word parts had_quoting, span), t) ∧
    t.src = [] ∧ StandsFor dir_prefix inner parts

/-! ## Which names are read back -/

section

variable {nested : Nested} {reserved : Bool} { dir_prefix inner text : List Char}

theorem src_newBytes (text : List Char) :
    (LexerState.newBytes (encode text)).src = pushText text true :=
  bytesToStr_encode_text text

/-- One run with enough fuel shows what is read. -/
theorem readsAsName_iff_run
    (hrun : ∀ n, N ≤ n → ∃ span t, scanToken nested n
        { LexerState.newBytes (encode text) with recognize_reserved := reserved } =
      some (.ok (token, span), t) ∧ t.src = rest) :
    ReadsAsName nested reserved dir_prefix inner text ↔ rest = [] ∧
      ∃ parts had_quoting, token = .Word parts had_quoting ∧ StandsFor dir_prefix inner parts := by
  constructor
  · rintro ⟨M, h⟩
    obtain ⟨parts, had_quoting, span, t, hnext, ht, hstands⟩ := h (max M N) (Nat.le_max_left M N)
    obtain ⟨span', t', hscan, ht'⟩ := hrun (max M N) (Nat.le_max_right M N)
    cases hscan.symm.trans hnext
    exact ⟨ht'.symm.trans ht, parts, had_quoting, rfl, hstands⟩
  · rintro ⟨rfl, parts, had_quoting, rfl, hstands⟩
    refine ⟨N, fun n hn => ?_⟩
    obtain ⟨span, t, hscan, ht⟩ := hrun n hn
    exact ⟨parts, had_quoting, span, t, hscan, ht, hstands⟩

theorem not_readsAsName_lineEnd (h : AtLineEnd (pushText text true)) :
    ¬ ReadsAsName nested reserved dir_prefix inner text := by
  rintro ⟨N, hreads⟩
  obtain ⟨parts, had_quoting, span, t, hnext, -, -⟩ := hreads N (Nat.le_refl N)
  have hline : AtLineEnd
      { LexerState.newBytes (encode text) with recognize_reserved := reserved }.src := by
    change AtLineEnd (LexerState.newBytes (encode text)).src
    rw [src_newBytes]
    exact h
  rcases scanToken_lineEnd nested hline hnext with h | h <;> cases h

end

/-! ### Names that need no quotes -/

section

variable {inner : List Char}

theorem byte_mem_encode (hb : b < 0x80) (h : Char.ofNat b.toNat ∈ inner) :
    b ∈ encode inner := by
  refine mem_flatMap.mpr ⟨_, h, ?_⟩
  rw [encodeChar_of_ascii hb]
  exact mem_singleton_self b

theorem not_mem_of_not_needsQuoting (h : needsQuoting inner = false)
    (hb : b ∈ QUOTED_BYTES) : Char.ofNat b.toNat ∉ inner := by
  intro hmem
  have hascii : ∀ b ∈ QUOTED_BYTES, b < 0x80 := by decide +kernel
  refine absurd (any_eq_true.mpr ⟨b, byte_mem_encode (hascii b hb) hmem, ?_⟩)
    (Bool.eq_false_iff.mp h)
  exact contains_iff_mem.mpr hb

/-- Without the bytes that ask for quotes, only a newline ends the word. -/
theorem isBare_of_not_quoted
    (h : isQuoted in_quote inner = false) (hseg : ∀ c ∈ seg, c ∈ inner) (hnewline : '\n' ∉ seg) :
    IsBare (pushText seg true) := by
  rw [isQuoted, Bool.or_eq_false_iff, Bool.or_eq_false_iff] at h
  have hquote : '\'' ∉ inner := by simpa using h.2
  have hnot {b : UInt8} (hb : b ∈ QUOTED_BYTES) := not_mem_of_not_needsQuoting h.1.2 hb
  intro c hc
  rcases mem_pushText hc with hc | rfl
  · have hmem := hseg c hc
    refine ⟨?_, ?_, ?_⟩
    · by_contra hplain
      rcases special_of_not_plain (by simpa using hplain) with rfl | rfl | rfl | rfl | rfl
      · exact hnot (b := 0x22) (by decide) hmem
      · exact hquote hmem
      · exact hnot (b := 0x5C) (by decide) hmem
      · exact hnot (b := 0x24) (by decide) hmem
      · exact hnot (b := 0x60) (by decide) hmem
    · by_contra hend
      simp only [isWordEnd, Bool.not_eq_false, Bool.or_eq_true, beq_iff_eq] at hend
      rcases hend with ((((((((rfl | rfl) | rfl) | rfl) | rfl) | rfl) | rfl) | rfl) | rfl) | rfl
      · exact hnot (b := 0x20) (by decide) hmem
      · exact hnot (b := 0x09) (by decide) hmem
      · exact hnewline hc
      · exact hnot (b := 0x3B) (by decide) hmem
      · exact hnot (b := 0x26) (by decide) hmem
      · exact hnot (b := 0x28) (by decide) hmem
      · exact hnot (b := 0x29) (by decide) hmem
      · exact hnot (b := 0x7C) (by decide) hmem
      · exact hnot (b := 0x3C) (by decide) hmem
      · exact hnot (b := 0x3E) (by decide) hmem
    · rintro rfl
      exact hnot (b := 0x23) (by decide) hmem
  · exact ⟨by decide, by decide, by decide⟩

theorem not_glob_of_not_quoted (h : isQuoted in_quote inner = false)
    {bytes : List UInt8} (hbytes : ∀ b ∈ bytes, b ∈ encode inner) :
    bytes.any isGlobByte = false := by
  rw [isQuoted, Bool.or_eq_false_iff, Bool.or_eq_false_iff] at h
  rw [any_eq_false]
  intro b hb hglob
  have hquoted : b ∈ QUOTED_BYTES := by
    simp only [isGlobByte, Bool.or_eq_true, beq_iff_eq] at hglob
    rcases hglob with (rfl | rfl) | rfl <;> decide
  exact absurd (any_eq_true.mpr ⟨b, hbytes b hb, contains_iff_mem.mpr hquoted⟩)
    (Bool.eq_false_iff.mp h.1.2)

end

/-! ### The condition -/

/-- The lexer takes the name for a reserved word or an assignment. -/
def IsSpecialWord (reserved : Bool) (text : List Char) : Prop :=
  reserved = true ∧ (reservedWords.lookup text).isSome = true ∨
    ∃ name value, text = name ++ '=' :: value ∧ isName name = true

/-- **When a name is read back**: in quotes, unless a `~/` stands in front that the
directory does not have; without quotes, if it is no empty name, has no newline, does not
start with a tilde of its own and is no assignment or reserved word. -/
def ReadBack (reserved in_quote : Bool) ( dir_prefix inner : List Char) : Prop :=
  if isQuoted in_quote inner then hasHome inner = true → hasHome dir_prefix = true
  else inner ≠ [] ∧ '\n' ∉ inner ∧
    (hasHome dir_prefix = true ∨ inner.head? ≠ some '~' ∧ ¬ IsSpecialWord reserved inner)

theorem eq_of_hasHome (h : hasHome text = true) : ∃ rest, text = '~' :: '/' :: rest := by
  obtain ⟨rest, rfl⟩ := List.isPrefixOf_iff_prefix.mp h
  exact ⟨rest, rfl⟩

theorem hasHome_mono { dir_prefix inner} (h : dir_prefix <+: inner)
    (hhome : hasHome dir_prefix = true) : hasHome inner = true :=
  List.isPrefixOf_iff_prefix.mpr ((List.isPrefixOf_iff_prefix.mp hhome).trans h)

section

variable (nested : Nested) {reserved in_quote : Bool} { dir_prefix inner : List Char}

theorem wordEnds_nil : WordEnds [] := nofun

theorem coalesceFrom_quoted {parts} (h : ∀ part ∈ parts, ∀ s, part ≠ .Literal s)
    {part} : coalesceFrom part parts = part :: parts := by
  induction parts generalizing part with
  | nil => rfl
  | cons next parts ih =>
    have hnext := h next mem_cons_self
    have htail : coalesceFrom next parts = next :: parts :=
      ih fun p hp => h p (mem_cons_of_mem next hp)
    rw [coalesceFrom, htail]
    exact fun _ s _ heq => hnext s heq

theorem readsAsName_iff_word (hsrc : pushText text true = c :: src) (hend : isWordEnd c = false)
    (hcomment : c ≠ '#') (hcontinuation : atContinuation (c :: src) = false) (hparts : parts ≠ [])
    (N : Nat) (hword : ∀ n, N ≤ n → ∀ span, Reads
      (readWordLoop nested span .Word false n { had_quoting := false }) (c :: src)
      (parts, had_quoting) rest) :
    ReadsAsName nested reserved dir_prefix inner text ↔ rest = [] ∧
      ∃ parts' had_quoting', tokenOfWord reserved parts had_quoting = .Word parts' had_quoting' ∧
        StandsFor dir_prefix inner parts' := by
  refine @readsAsName_iff_run nested reserved dir_prefix inner text (N + 1) _ rest fun n hn => ?_
  obtain ⟨n, rfl⟩ := Nat.exists_eq_add_one.mpr (Nat.zero_lt_of_lt hn)
  exact scanToken_startsWord nested ((src_newBytes text).trans hsrc) hend hcomment hcontinuation
    hparts fun span => hword (n + 1) (Nat.le_of_succ_le hn) span

theorem coalesceLiterals_quoted
    (h : ∀ part ∈ parts, ∀ s, part ≠ .Literal s) : coalesceLiterals parts = parts := by
  cases parts with
  | nil => rfl
  | cons part parts => exact coalesceFrom_quoted fun p hp => h p (mem_cons_of_mem part hp)

theorem tokenOfWord_part (part : WordPart) (hpart : ∀ s, part ≠ .Literal s)
    (parts : List WordPart) (had_quoting : Bool) :
    tokenOfWord reserved (part :: parts) had_quoting = .Word (part :: parts) had_quoting := by
  have hsingle : singleLiteralText (part :: parts) = none := by
    unfold singleLiteralText
    split
    · next heq => exact absurd (List.cons.inj heq).1 (hpart _)
    · rfl
  have hsplit : trySplitAssignment (part :: parts) = none := by
    unfold trySplitAssignment
    split
    · next heq => exact absurd (List.cons.inj heq).1 (hpart _)
    · rfl
  rw [tokenOfWord, hsingle, hsplit]
  cases reserved <;> rfl

theorem hasHome_of_escapeQuotes {inner rest}
    (h : escapeQuotes inner = '~' :: '/' :: rest) : hasHome inner = true := by
  have hquote {c d : Char} {text more : List Char} (hd : d ≠ '\'')
      (h : escapeQuotes (c :: text) = d :: more) : c = d ∧ escapeQuotes text = more := by
    rw [escapeQuotes, flatMap_cons] at h
    split at h
    · exact absurd (List.cons.inj h).1.symm hd
    · exact List.cons.inj h
  cases inner with
  | nil => cases h
  | cons c inner =>
    obtain ⟨rfl, htail⟩ := hquote (by decide) h
    cases inner with
    | nil => cases htail
    | cons d inner =>
      obtain ⟨rfl, -⟩ := hquote (by decide) htail
      rfl

theorem replacement_quoted (hquoted : isQuoted in_quote inner = true)
    (hhome : hasHome inner = false) :
    replacement in_quote inner = '\'' :: (escapeQuotes inner ++ ['\'']) := by
  rw [replacement, if_pos hquoted]
  split
  · next heq => exact absurd (hasHome_of_escapeQuotes heq) (by simp [hhome])
  · rfl

/-- The word so far, read from `~/` on. -/
def homeAcc : WordAcc :=
  (({ had_quoting := false } : WordAcc).add (.Tilde [])).push '/'

theorem result_home (h : ∀ part ∈ parts, ∀ s, part ≠ .Literal s) :
    (quotedWith homeAcc parts).result = (.Tilde [] :: .Literal [0x2F] :: parts, true) := by
  have hparts : (quotedWith homeAcc parts).flush.parts =
      .Tilde [] :: .Literal [0x2F] :: parts := rfl
  rw [WordAcc.result, hparts, coalesceLiterals, @coalesceFrom_part (.Tilde []) (by rintro s ⟨⟩),
    coalesceLiterals,
    coalesceFrom_quoted h]
  rfl

theorem result_start (h : ∀ part ∈ parts, ∀ s, part ≠ .Literal s) :
    (quotedWith { had_quoting := false } parts).result = (parts, true) := by
  have hparts : (quotedWith { had_quoting := false } parts).flush.parts = parts := rfl
  rw [WordAcc.result, hparts, coalesceLiterals_quoted h]
  rfl

/-- A name in quotes behind `~/`. -/
theorem reads_homeName (more : List Char) :
    ∃ parts N, QuotedParts more parts ∧ ∀ n, N ≤ n → ∀ span,
      Reads (readWordLoop nested span .Word false n { had_quoting := false })
        ('~' :: '/' :: '\'' :: (pushText (escapeQuotes more) true ++ ['\'']))
        (.Tilde [] :: .Literal [0x2F] :: parts, true) [] := by
  obtain ⟨parts, N, hparts, hreads⟩ := reads_quotedName nested more
  refine ⟨parts, N + 4, hparts, fun n hn span => ?_⟩
  obtain ⟨n, rfl⟩ := Nat.exists_eq_add_of_le' (show 3 ≤ n by omega)
  have hquoted := hreads span (n + 1) (by omega) homeAcc [] wordEnds_nil
  rw [result_home hparts.quoted] at hquoted
  have hslash {src : List Char} : atContinuation ('/' :: src) = false := atContinuation_cons nofun
  have htilde := @reads_tilde nested span { had_quoting := false }
    ('/' :: '\'' :: (pushText (escapeQuotes more) true ++ ['\''])) (n + 1) [] rfl nofun
    (fun c hc => by cases hc; rfl) hslash (Nat.succ_pos n)
  refine reads_round nested span (atContinuation_cons nofun) rfl (fun h => nomatch h.1) htilde ?_
  exact reads_round nested span hslash rfl (fun h => nomatch h.1)
    (reads_bareChar nested span n rfl hslash nofun) hquoted

/-- What is read of a name in quotes, behind `~/` if it starts so. -/
theorem readsAsName_quoted (hquoted : isQuoted in_quote inner = true)
    (hdir : dir_prefix <+: inner) :
    ReadsAsName nested reserved dir_prefix inner (replacement in_quote inner) ↔
      (hasHome inner = true → hasHome dir_prefix = true) := by
  by_cases hhome : hasHome inner = true
  · obtain ⟨more, rfl⟩ := eq_of_hasHome hhome
    have hreplacement : replacement in_quote ('~' :: '/' :: more) =
        '~' :: '/' :: '\'' :: (escapeQuotes more ++ ['\'']) := by
      rw [replacement, if_pos hquoted]
      rfl
    have hsrc : pushText ('~' :: '/' :: '\'' :: (escapeQuotes more ++ ['\''])) true =
        '~' :: '/' :: '\'' :: (pushText (escapeQuotes more) true ++ ['\'']) := by
      change '~' :: '/' :: '\'' :: pushText (escapeQuotes more ++ ['\'']) true = _
      rw [pushText_append]
      rfl
    obtain ⟨parts, N, hparts, hreads⟩ := reads_homeName nested more
    rw [hreplacement, readsAsName_iff_word nested hsrc rfl nofun (atContinuation_cons nofun)
      (by simp) N hreads, tokenOfWord_part (.Tilde []) nofun]
    have hstands : StandsFor dir_prefix ('~' :: '/' :: more)
        (.Tilde [] :: .Literal [0x2F] :: parts) ↔ hasHome dir_prefix = true := by
      rw [StandsFor]
      split
      · next hdir_home =>
          refine iff_of_true ⟨_, rfl, ?_⟩ hdir_home
          rw [nameBytes, hparts.bytes]
          rfl
      · next hdir_home => exact iff_of_false nofun hdir_home
    constructor
    · rintro ⟨-, parts', had_quoting, htoken, h⟩ -
      cases htoken
      exact hstands.mp h
    · exact fun h => ⟨rfl, _, _, rfl, hstands.mpr (h rfl)⟩
  · have hno_home : hasHome inner = false := by simpa using hhome
    have hdir_home : hasHome dir_prefix = false := by
      rw [← Bool.not_eq_true]
      exact fun h => hhome (hasHome_mono hdir h)
    have hsrc : pushText ('\'' :: (escapeQuotes inner ++ ['\''])) true =
        '\'' :: (pushText (escapeQuotes inner) true ++ ['\'']) := by
      change '\'' :: pushText (escapeQuotes inner ++ ['\'']) true = _
      rw [pushText_append]
      rfl
    obtain ⟨parts, N, hparts, hreads⟩ := reads_quotedName nested inner
    have hword (n : Nat) (hn : N ≤ n) (span : Span) :=
      hreads span n hn { had_quoting := false } [] wordEnds_nil
    rw [result_start hparts.quoted] at hword
    rw [replacement_quoted hquoted hno_home, readsAsName_iff_word nested hsrc rfl (by decide)
      (atContinuation_cons nofun) hparts.ne N hword]
    refine iff_of_true ⟨rfl, parts, true, ?_, ?_⟩ fun h => absurd h hhome
    · cases hcons : parts with
      | nil => exact absurd hcons hparts.ne
      | cons part rest =>
        exact tokenOfWord_part part (hparts.quoted part (hcons ▸ mem_cons_self)) rest true
    · rw [StandsFor, if_neg (by simp [hdir_home])]
      exact hparts.bytes

/-! ### Names without quotes -/

theorem pushText_head
    (h : pushText (c :: text) true = d :: src) : d = c ∨ d = ESCAPE := by
  rw [pushText, flatMap_cons] at h
  split at h
  · exact .inr (List.cons.inj h).1.symm
  · exact .inl (List.cons.inj h).1.symm

theorem pushText_ne_nil (h : text ≠ []) : pushText text true ≠ [] := by
  cases text with
  | nil => exact absurd rfl h
  | cons c text =>
    rw [pushText, flatMap_cons]
    split <;> simp

theorem barePart_ne_nil {text : Text} (h : text ≠ []) : barePart text ≠ [] := by
  unfold barePart
  split
  · simp
  · rw [plainParts, if_neg (by simpa using h)]
    simp

theorem nameBytes_plain (hbare : isQuoted in_quote inner = false)
    (hseg : ∀ c ∈ seg, c ∈ inner) :
    nameBytes (plainParts (pushText seg true)) = some (encode seg) := by
  have hglob : (encode seg).any isGlobByte = false := by
    refine not_glob_of_not_quoted hbare fun b hb => ?_
    obtain ⟨c, hc, hb⟩ := mem_flatMap.mp hb
    exact mem_flatMap.mpr ⟨c, hseg c hc, hb⟩
  cases seg with
  | nil => rfl
  | cons c seg =>
    rw [plainParts, if_neg (by simpa using pushText_ne_nil (cons_ne_nil c seg)),
      strToBytes_pushText, nameBytes, hglob, if_neg (by rintro ⟨⟩)]
    simp [nameBytes]

theorem trySplitAssignment_iff :
    trySplitAssignment [.Literal (encode text)] = none ↔
      ¬ ∃ name value, text = name ++ '=' :: value ∧ isName name = true := by
  have hsplit {name value : List Char} (hequals : 0x3D ∉ encode name) :
      trySplitAssignment [.Literal (encode name ++ 0x3D :: encode value)] = none ↔
        ¬ isName name = true := by
    have hname : asUtf8Str (encode name) = some name := asUtf8Str_ofText name
    rw [trySplitAssignment_literal hequals, hname, Option.bind_some]
    split
    · next h => exact iff_of_false nofun fun hnot => hnot h
    · next h => exact iff_of_true rfl h
  have hbytes (name value : List Char) :
      encode (name ++ '=' :: value) = encode name ++ 0x3D :: encode value := by
    rw [encode_append, encode_cons]
    rfl
  constructor
  · rintro h ⟨name, value, rfl, hname⟩
    have hequals : 0x3D ∉ encode name := fun hmem =>
      absurd (name_byte (asUtf8Str_ofText name) hname hmem).2 (by decide)
    rw [hbytes] at h
    exact (hsplit hequals).mp h hname
  · intro h
    by_cases hmem : 0x3D ∈ encode text
    · obtain ⟨before, after, heq, hequals⟩ := eq_append_cons_of_mem hmem
      obtain ⟨name, value, rfl, rfl⟩ := encode_eq_append_cons (by decide) heq
      refine (congrArg (fun s => trySplitAssignment [.Literal s]) (hbytes name value)).trans ?_
      exact (hsplit hequals).mpr fun hname => h ⟨name, value, rfl, hname⟩
    · rw [trySplitAssignment, if_neg (by simpa using hmem)]

theorem tokenOfWord_text_iff :
    tokenOfWord reserved [.Literal (encode text)] false =
      .Word [.Literal (encode text)] false ↔ ¬ IsSpecialWord reserved text := by
  have hsingle : singleLiteralText [.Literal (encode text)] = some text :=
    asUtf8Str_ofText text
  rw [IsSpecialWord, not_or, ← trySplitAssignment_iff, tokenOfWord, hsingle]
  have hplain (hreserved : ¬ (reserved = true ∧ (reservedWords.lookup text).isSome = true)) :
      (trySplitAssignment [.Literal (encode text)] = none) ↔
        ¬ (reserved = true ∧ (reservedWords.lookup text).isSome = true) ∧
          trySplitAssignment [.Literal (encode text)] = none :=
    (and_iff_right hreserved).symm
  cases reserved with
  | false =>
    rw [← hplain (by rintro ⟨⟨⟩, _⟩)]
    cases trySplitAssignment [.Literal (encode text)] with
    | none => exact iff_of_true rfl rfl
    | some pair => exact iff_of_false (by rintro ⟨⟩) (by rintro ⟨⟩)
  | true =>
    rw [if_pos rfl, Option.bind_some]
    cases hlookup : reservedWords.lookup text with
    | none =>
      rw [hlookup] at hplain
      rw [← hplain (by rintro ⟨_, ⟨⟩⟩)]
      cases trySplitAssignment [.Literal (encode text)] with
      | none => exact iff_of_true rfl rfl
      | some pair => exact iff_of_false (by rintro ⟨⟩) (by rintro ⟨⟩)
    | some token =>
      have hall : ∀ p ∈ reservedWords, isWordToken p.2 = false := by decide
      obtain ⟨l₁, l₂, hl, -⟩ := lookup_eq_some_iff.mp hlookup
      have hnot := hall (text, token) (hl ▸ mem_append_right _ mem_cons_self)
      refine iff_of_false (fun h => ?_) fun h => h.1 ⟨rfl, rfl⟩
      dsimp only at h
      rw [h] at hnot
      cases hnot

theorem readsAsName_iff_bare (hbare : isQuoted in_quote inner = false)
    (hseg : ∀ c ∈ seg, c ∈ inner) (hnewline : '\n' ∉ seg) (hne : seg ≠ [])
    (hmore : WordEnds (pushText more true)) :
    ReadsAsName nested reserved dir_prefix inner (seg ++ more) ↔ pushText more true = [] ∧
      ∃ parts had_quoting, tokenOfWord reserved (barePart (pushText seg true)) false =
        .Word parts had_quoting ∧ StandsFor dir_prefix inner parts := by
  have htext : IsBare (pushText seg true) := isBare_of_not_quoted hbare hseg hnewline
  have hsrc := pushText_append seg more
  have hparts := barePart_ne_nil (pushText_ne_nil hne)
  have hread (n : Nat) (hn : (pushText seg true).length + 3 ≤ n) (span : Span) :=
    reads_bareWord nested span n htext hmore (by omega)
  have hcontinuation := htext.not_continuation hmore.not_continuation
  cases hword : pushText seg true with
  | nil => exact absurd hword (pushText_ne_nil hne)
  | cons c src =>
    rw [hword] at htext hsrc hparts hread hcontinuation
    obtain ⟨-, hend, hcomment⟩ := htext c mem_cons_self
    exact readsAsName_iff_word nested hsrc hend hcomment hcontinuation hparts _ hread

theorem readsAsName_bare (hbare : isQuoted in_quote inner = false) (hdir : dir_prefix <+: inner) :
    ReadsAsName nested reserved dir_prefix inner (replacement in_quote inner) ↔
      inner ≠ [] ∧ '\n' ∉ inner ∧
        (hasHome dir_prefix = true ∨ inner.head? ≠ some '~' ∧ ¬ IsSpecialWord reserved inner) := by
  have hinserted : replacement in_quote inner = inner := by
    rw [replacement, if_neg (by simp [hbare])]
  rw [hinserted]
  by_cases hne : inner = []
  · subst hne
    exact iff_of_false (not_readsAsName_lineEnd (.inl rfl)) fun h => h.1 rfl
  by_cases hnewline : '\n' ∈ inner
  · refine iff_of_false ?_ fun h => h.2.1 hnewline
    obtain ⟨seg, more, heq, hseg⟩ := eq_append_cons_of_mem hnewline
    rcases seg with _ | ⟨c, seg⟩
    · rw [heq]
      exact not_readsAsName_lineEnd (.inr rfl)
    · -- the word ends at the newline
      have hmore : pushText ('\n' :: more) true = '\n' :: pushText more true := rfl
      have hends : WordEnds (pushText ('\n' :: more) true) := by
        rw [hmore]
        intro c hc
        cases hc
        rfl
      have hiff := @readsAsName_iff_bare nested reserved in_quote dir_prefix inner (c :: seg)
        ('\n' :: more) hbare (fun d hd => heq ▸ mem_append_left _ hd) hseg
        (cons_ne_nil c seg) hends
      rw [← heq, hmore] at hiff
      rw [hiff]
      exact fun h => nomatch h.1
  · have hiff := @readsAsName_iff_bare nested reserved in_quote dir_prefix inner inner []
      hbare (fun c hc => hc) hnewline hne wordEnds_nil
    rw [append_nil] at hiff
    rw [hiff]
    by_cases htilde : inner.head? = some '~'
    · obtain ⟨more, rfl⟩ := head?_eq_some_iff.mp htilde
      have hpushed : pushText ('~' :: more) true = '~' :: pushText more true := rfl
      rw [hpushed, barePart, tokenOfWord_part (.Tilde _) fun _ h => nomatch h]
      by_cases hhome : hasHome dir_prefix = true
      · refine iff_of_true ⟨rfl, _, _, rfl, ?_⟩ ⟨hne, hnewline, .inl hhome⟩
        obtain ⟨rest, heq⟩ := eq_of_hasHome (hasHome_mono hdir hhome)
        obtain rfl := (List.cons.inj heq).2
        rw [StandsFor, if_pos hhome]
        refine ⟨_, rfl, ?_⟩
        exact @nameBytes_plain in_quote _ ('/' :: rest) hbare
          fun c hc => mem_cons_of_mem _ hc
      · refine iff_of_false ?_ ?_
        · rintro ⟨-, parts, had_quoting, htoken, hstands⟩
          cases htoken
          rw [StandsFor, if_neg hhome] at hstands
          cases hstands
        · rintro ⟨-, -, h | h⟩
          · exact hhome h
          · exact h.1 rfl
    · have hhome : ¬ hasHome dir_prefix = true := by
        intro h
        obtain ⟨rest, rfl⟩ := eq_of_hasHome (hasHome_mono hdir h)
        exact htilde rfl
      have hhead : (pushText inner true).head? ≠ some '~' := by
        cases inner with
        | nil => exact absurd rfl hne
        | cons c inner =>
          intro h
          obtain ⟨src, hsrc⟩ := head?_eq_some_iff.mp h
          rcases pushText_head hsrc with rfl | h
          · exact htilde rfl
          · exact absurd h (by decide)
      have hparts : barePart (pushText inner true) = [.Literal (encode inner)] := by
        rw [barePart_plain hhead, plainParts, if_neg (by simpa using pushText_ne_nil hne),
          strToBytes_pushText]
      rw [hparts]
      constructor
      · rintro ⟨-, parts, had_quoting, htoken, -⟩
        obtain ⟨rfl, hquoting⟩ := tokenOfWord_parts htoken
        rw [hquoting] at htoken
        exact ⟨hne, hnewline, .inr ⟨htilde, tokenOfWord_text_iff.mp htoken⟩⟩
      · rintro ⟨-, -, h | ⟨-, hword⟩⟩
        · exact absurd h hhome
        · refine ⟨rfl, _, _, tokenOfWord_text_iff.mpr hword, ?_⟩
          rw [StandsFor, if_neg hhome, ← strToBytes_pushText inner]
          have hplain := nameBytes_plain hbare fun c hc => hc
          rw [plainParts, if_neg (by simpa using pushText_ne_nil hne)] at hplain
          rw [hplain, strToBytes_pushText]

/-- **What is inserted** for a name is read back as the name, if and only if `ReadBack`. -/
theorem readsAsName_iff (hdir : dir_prefix <+: inner) :
    ReadsAsName nested reserved dir_prefix inner (replacement in_quote inner) ↔
      ReadBack reserved in_quote dir_prefix inner := by
  rw [ReadBack]
  cases hquoted : isQuoted in_quote inner with
  | true =>
    rw [if_pos rfl]
    exact readsAsName_quoted nested hquoted hdir
  | false =>
    rw [if_neg (by simp)]
    exact readsAsName_bare nested hquoted hdir

end

/-! ## The line -/

theorem Replaces.unique {line new before word inserted after}
    (h : Replaces line new before word inserted after)
    (h' : Replaces line new before' word' inserted' after') : inserted' = inserted := by
  have hcursor := h.cursor.trans h'.cursor.symm
  have hsplit := splitBytes_append (before ++ word) after
  have hsplit' := splitBytes_append (before' ++ word') after'
  rw [← h.buf, hcursor] at hsplit
  rw [← h'.buf] at hsplit'
  obtain ⟨hword, -⟩ := Prod.mk.inj (hsplit.symm.trans hsplit')
  have hstart := h.start
  rw [hword, ← h'.start] at hstart
  have hfront := splitBytes_append before word
  rw [hword, hstart, splitBytes_append] at hfront
  obtain ⟨hbefore, -⟩ := Prod.mk.inj hfront
  have hnew := splitBytes_append (before ++ inserted) after
  have hnew' := splitBytes_append (before' ++ inserted') after'
  rw [← h.new_buf, ← h.new_cursor] at hnew
  rw [← h'.new_buf, ← h'.new_cursor] at hnew'
  obtain ⟨hinserted, -⟩ := Prod.mk.inj (hnew'.symm.trans hnew)
  rw [hbefore] at hinserted
  exact append_cancel_left hinserted

/-- The line `rm `, to be completed at its end. -/
def rmLine : LineBuffer := { buf := ['r', 'm', ' '], cursor := 3, kill_ring := [] }

theorem rmLine_atBoundary : rmLine.AtBoundary := ⟨['r', 'm', ' '], [], rfl, rfl⟩

/-- A file as the only candidate. -/
def offered (name : List Char) : CompletionState where
  comp := { names := name, entries := [⟨0, byteLen name, 0⟩] }
  selected := 0
  dir_prefix := []
  in_quote := false

end Ish.Editor
