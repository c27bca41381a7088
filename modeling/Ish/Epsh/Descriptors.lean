import Ish.Epsh.Parser
import Ish.Epsh.ReadOn

/-!
# Descriptors of redirections

When a word of digits is the descriptor of the redirection behind it. The parser goes by
the tokens, so it takes a short number for the descriptor also where blanks stand between
them, and never takes a long one.
-/

namespace Ish.Epsh

open Ish.Lib List
open Process (Keeps always Returns bind_eq_ok bind_ok)

/-! ## Reading tokens -/

@[grind ←]
theorem readsOn_skipComment (n : Nat) : ReadsOn (skipComment n) := by
  induction n with
  | zero => exact .diverge
  | succ n ih =>
    unfold skipComment
    grind

@[grind ←]
theorem readsOn_skipBlanks (n : Nat) : ReadsOn (skipBlanks n) := by
  induction n with
  | zero => exact .diverge
  | succ n ih =>
    unfold skipBlanks
    grind

@[grind ←]
theorem readsOn_operatorAfter (short : Token) (longer : List (Char × Token)) :
    ReadsOn (operatorAfter short longer) := by
  unfold operatorAfter
  grind

@[grind ←]
theorem readsOn_lessOperator : ReadsOn lessOperator := by
  unfold lessOperator
  grind

@[grind ←]
theorem readsOn_tryOperator : ReadsOn tryOperator := by
  unfold tryOperator
  grind

section

variable (nested : Nested) (n : Nat)

@[grind ←]
theorem readsOn_readWord (span : Span) : ReadsOn (readWord nested n span) := by
  unfold readWord
  refine .bind ((reader_words nested span n).loop _ _ _).readsOn fun result => ?_
  refine .ite (fun _ => .fail _) fun _ => ?_
  exact .bind .get fun _ => .pure _

@[grind ←]
theorem readsOn_scanToken : ReadsOn (scanToken nested n) := by
  unfold scanToken
  refine .bind (readsOn_skipBlanks n) fun _ => .bind readsOn_currentSpan fun span =>
    .bind readsOn_peekChar fun next => ?_
  split
  · exact .pure _
  · exact .bind reader_skipChar.readsOn fun _ => .pure _
  · refine .bind readsOn_tryOperator fun token => ?_
    cases token with
    | some token => exact .pure _
    | none => exact readsOn_readWord nested n span

end

/-! ## The next operator -/

/-- The source behind blanks and line continuations. -/
def dropBlanks : List Char → List Char
  | ' ' :: src => dropBlanks src
  | '\t' :: src => dropBlanks src
  | '\\' :: '\n' :: src => dropBlanks src
  | src => src

/-- The source goes on with the operator of a redirection. -/
def startsRedir (src : List Char) : Bool := src.head? == some '<' || src.head? == some '>'

/-- What is read from a source is what is read from a state with that source. -/
theorem Reads.eq {α : Type} {x : LexM α} {src rest : List Char} {a b s t}
    (hx : Reads x src a rest) (hs : s.src = src) (h : x s = some (.ok b, t)) :
    b = a ∧ t.src = rest := by
  obtain ⟨u, hrun, hu⟩ := hx s hs
  rw [hrun] at h
  cases h
  exact ⟨rfl, hu⟩

theorem dropBlanks_skipContinuations (src : List Char) (s : LexerState) (hs : s.src = src) :
    dropBlanks (LexerState.skipContinuations src s).src = dropBlanks s.src := by
  induction src, s using LexerState.skipContinuations.induct with
  | case1 src s ih =>
    have hsrc : s.advanced.advanced.src = src := by rw [src_advanced, src_advanced, hs]; rfl
    rw [LexerState.skipContinuations, ih hsrc, hsrc, hs, dropBlanks]
  | case2 src s h =>
    rw [LexerState.skipContinuations]
    exact h

theorem skipComment_src (h : skipComment n s = some (.ok (), t)) :
    startsRedir (dropBlanks t.src) = false := by
  induction n generalizing s with
  | zero => cases h
  | succ n ih =>
    unfold skipComment at h
    obtain ⟨next, u, hpeek, h⟩ := bind_eq_ok h
    obtain ⟨hnext, rfl⟩ : s.src.head? = next ∧ s = u := by cases hpeek; exact ⟨rfl, rfl⟩
    split at h
    · cases h
      rw [head?_eq_none_iff.mp hnext]
      rfl
    · cases h
      obtain ⟨src, hsrc⟩ := head?_eq_some_iff.mp hnext
      rw [hsrc]
      rfl
    · obtain ⟨_, v, -, h⟩ := bind_eq_ok h
      exact ih h

theorem skipBlanks_src {n : Nat} {s t} (h : skipBlanks n s = some (.ok (), t)) :
    startsRedir t.src = startsRedir (dropBlanks s.src) ∧ atContinuation t.src = false := by
  induction n generalizing s with
  | zero => cases h
  | succ n ih =>
    unfold skipBlanks at h
    obtain ⟨next, u, hpeek, h⟩ := bind_eq_ok h
    obtain ⟨hnext, hcontinuation, hdrop⟩ : u.src.head? = next ∧ atContinuation u.src = false ∧
        dropBlanks u.src = dropBlanks s.src := by
      cases hpeek
      exact ⟨rfl, atContinuation_skipContinuations s.src s rfl,
        dropBlanks_skipContinuations s.src s rfl⟩
    rw [← hdrop]
    have hblank {c : Char} {src : List Char} (hc : c ≠ '\\') (hsrc : u.src = c :: src)
        {v : LexerState} (hskip : skipChar u = some (.ok (), v)) : v.src = src :=
      (Reads.eq (reads_skip (atContinuation_cons fun h => absurd h hc)) hsrc hskip).2
    split at h
    · obtain ⟨src, hsrc⟩ := head?_eq_some_iff.mp hnext
      obtain ⟨_, v, hskip, h⟩ := bind_eq_ok h
      rw [hsrc, dropBlanks, ← hblank (by decide) hsrc hskip]
      exact ih h
    · obtain ⟨src, hsrc⟩ := head?_eq_some_iff.mp hnext
      obtain ⟨_, v, hskip, h⟩ := bind_eq_ok h
      rw [hsrc, dropBlanks, ← hblank (by decide) hsrc hskip]
      exact ih h
    · obtain ⟨src, hsrc⟩ := head?_eq_some_iff.mp hnext
      obtain ⟨_, v, hskip, h⟩ := bind_eq_ok h
      obtain ⟨hstarts, hnot⟩ := ih h
      rw [hstarts, skipComment_src hskip, hsrc]
      exact ⟨rfl, hnot⟩
    · rename_i hspace htab hcomment
      cases h
      refine ⟨congrArg startsRedir ?_, hcontinuation⟩
      rw [dropBlanks.eq_def]
      split
      · rename_i hsrc
        rw [hsrc] at hnext
        exact absurd hnext.symm hspace
      · rename_i hsrc
        rw [hsrc] at hnext
        exact absurd hnext.symm htab
      · rename_i hsrc
        rw [hsrc] at hcontinuation
        cases hcontinuation
      · rfl

theorem returns_operatorAfter
    (hshort : p short) (hlonger : ∀ pair ∈ longer, p pair.2) :
    Returns p (operatorAfter short longer) := by
  unfold operatorAfter
  refine .bind fun next => ?_
  split
  · split
    · rename_i token hlookup
      obtain ⟨before, after, rfl, -⟩ := lookup_eq_some_iff.mp hlookup
      exact .bind fun _ => .pure (hlonger _ (mem_append_right before mem_cons_self))
    · exact .pure hshort
  · exact .pure hshort

theorem returns_lessOperator : Returns (fun token => token.isRedir = true) lessOperator := by
  unfold lessOperator
  have hless : ∀ pair ∈ [('<', Token.DLess), ('&', .LessAnd), ('>', .LessGreat)],
      pair.2.isRedir = true := by simp [Token.isRedir]
  refine .andThen (returns_operatorAfter (p := fun token => token.isRedir = true) rfl hless)
    fun token htoken => ?_
  split
  · exact returns_operatorAfter rfl (by simp [Token.isRedir])
  · exact .pure htoken

theorem tryOperator_isRedir
    (hcontinuation : atContinuation s.src = false)
    (h : tryOperator s = some (.ok result, t)) : result.any Token.isRedir = startsRedir s.src := by
  have hone {b : Bool} {x : LexM Token} (hx : Returns (fun token => token.isRedir = b) x) :
      Returns (fun result => Option.any Token.isRedir result = b)
        (skipChar >>= fun _ => some <$> x) :=
    .bind fun _ => .map hx fun token htoken => htoken
  unfold tryOperator at h
  obtain ⟨next, u, hpeek, h⟩ := bind_eq_ok h
  obtain ⟨hnext, rfl⟩ : s.src.head? = next ∧ s = u := by
    change some (Ending.ok s.atChar.src.head?, s.atChar) = _ at hpeek
    rw [atChar_eq hcontinuation] at hpeek
    cases hpeek
    exact ⟨rfl, rfl⟩
  rw [startsRedir, hnext]
  have hafter {short : Token} {longer : List (Char × Token)} {b : Bool} (hshort : short.isRedir = b)
      (hlonger : ∀ pair ∈ longer, pair.2.isRedir = b) :
      Returns (fun token => token.isRedir = b) (operatorAfter short longer) :=
    returns_operatorAfter hshort hlonger
  split at h
  · exact hone (hafter (b := false) rfl (by simp [Token.isRedir])) s result t h
  · exact hone (hafter (b := false) rfl (by simp [Token.isRedir])) s result t h
  · exact hone (hafter (b := false) rfl (by simp [Token.isRedir])) s result t h
  · obtain ⟨_, v, -, h⟩ := bind_eq_ok h
    cases h
    rfl
  · obtain ⟨_, v, -, h⟩ := bind_eq_ok h
    cases h
    rfl
  · exact hone returns_lessOperator s result t h
  · exact hone (hafter (b := true) rfl (by simp [Token.isRedir])) s result t h
  · rename_i hless hgreat
    cases h
    cases next with
    | none => rfl
    | some c =>
      have hc : ¬ c = '<' ∧ ¬ c = '>' :=
        ⟨fun h => hless (congrArg some h), fun h => hgreat (congrArg some h)⟩
      simp [hc]

theorem tokenOfWord_isRedir (recognize_reserved : Bool) (parts : List WordPart)
    (had_quoting : Bool) : (tokenOfWord recognize_reserved parts had_quoting).isRedir = false := by
  have hreserved : reservedWords.all (fun pair => !pair.2.isRedir) = true := rfl
  unfold tokenOfWord
  dsimp only
  split
  · rename_i token heq
    split at heq
    · obtain ⟨text, -, hlookup⟩ := Option.bind_eq_some_iff.mp heq
      obtain ⟨before, after, hlist, -⟩ := lookup_eq_some_iff.mp hlookup
      have hmem : (text, token) ∈ reservedWords := by
        rw [hlist]
        exact mem_append_right before mem_cons_self
      simpa using all_eq_true.mp hreserved _ hmem
    · cases heq
  · split <;> rfl

section

variable {nested : Nested} {n : Nat} {s t : LexerState} {token : Token} {span : Span}

/-- **A token** is the operator of a redirection if the source behind the blanks starts
with one. -/
theorem scanToken_isRedir (h : scanToken nested n s = some (.ok (token, span), t)) :
    token.isRedir = startsRedir (dropBlanks s.src) := by
  unfold scanToken at h
  obtain ⟨⟨⟩, u, hblanks, h⟩ := bind_eq_ok h
  obtain ⟨hstarts, hcontinuation⟩ := skipBlanks_src hblanks
  rw [← hstarts]
  obtain ⟨span', v, hspan, h⟩ := bind_eq_ok h
  cases hspan
  obtain ⟨next, v, hpeek, h⟩ := bind_eq_ok h
  obtain ⟨hnext, rfl⟩ : u.src.head? = next ∧ u = v := by
    change some (Ending.ok u.atChar.src.head?, u.atChar) = _ at hpeek
    rw [atChar_eq hcontinuation] at hpeek
    cases hpeek
    exact ⟨rfl, rfl⟩
  split at h
  · cases h
    rw [startsRedir, hnext]
    rfl
  · obtain ⟨_, v, -, h⟩ := bind_eq_ok h
    cases h
    rw [startsRedir, hnext]
    rfl
  · obtain ⟨result, v, hoperator, h⟩ := bind_eq_ok h
    rw [← tryOperator_isRedir hcontinuation hoperator]
    split at h
    · cases h
      rfl
    · unfold readWord at h
      obtain ⟨word, w, -, h⟩ := bind_eq_ok h
      dsimp only at h
      split at h
      · cases h
      · obtain ⟨w', w'', -, h⟩ := bind_eq_ok h
        cases h
        exact tokenOfWord_isRedir _ _ _

end

/-! ## Tokens of the parser -/

/-- The token is pushed back. -/
def ParserState.pushed (s : ParserState) (token : Token × Span) : ParserState :=
  { s with lexer := { s.lexer with pushback := some token } }

namespace Parser

variable {env : ParserEnv} {rounds : Nat} {s t u : ParserState} {token : Token × Span}

/-- No token is pushed back once one has been taken. -/
theorem next_pushback (h : next env rounds s = some (.ok token, t)) : t.lexer.pushback = none := by
  obtain ⟨⟨ending, lexer⟩, hlex, hr⟩ := Option.map_eq_some_iff.mp h
  cases hr
  unfold nextToken at hlex
  obtain ⟨state, v, hget, hlex⟩ := bind_eq_ok hlex
  cases hget
  cases hpushed : s.lexer.pushback with
  | some pushed =>
    rw [hpushed] at hlex
    cases hlex
    rfl
  | none =>
    rw [hpushed] at hlex
    have hlater : Later s.lexer lexer := readsOn_scanToken env.toNested rounds _ _ _ hlex
    rw [hlater.pushback, hpushed]

theorem peek_of_next (h : next env rounds s = some (.ok token, t)) :
    peek env rounds s = some (.ok token, t.pushed token) := by
  rw [peek, bind_ok h]
  rfl

theorem next_of_peek (h : peek env rounds s = some (.ok token, t)) :
    ∃ u, next env rounds s = some (.ok token, u) ∧ t = u.pushed token := by
  obtain ⟨token', u, hnext, hpush⟩ := bind_eq_ok h
  cases hpush
  exact ⟨u, hnext, rfl⟩

theorem next_pushed (ht : t.lexer.pushback = none) :
    next env rounds (t.pushed token) = some (.ok token, t) := by
  have hsame : { t with lexer := { t.lexer with pushback := none } } = t := by rw [← ht]
  calc next env rounds (t.pushed token)
      = some (.ok token, { t with lexer := { t.lexer with pushback := none } }) := rfl
    _ = some (.ok token, t) := by rw [hsame]

theorem skip_pushed (ht : t.lexer.pushback = none) :
    skip env rounds (t.pushed token) = some (.ok (), t) :=
  bind_ok (next_pushed ht)

theorem next_isRedir (hs : s.lexer.pushback = none) (h : next env rounds s = some (.ok token, t)) :
    token.1.isRedir = startsRedir (dropBlanks s.lexer.src) := by
  obtain ⟨⟨ending, lexer⟩, hlex, hr⟩ := Option.map_eq_some_iff.mp h
  cases hr
  unfold nextToken at hlex
  obtain ⟨state, v, hget, hlex⟩ := bind_eq_ok hlex
  cases hget
  rw [hs] at hlex
  exact scanToken_isRedir hlex

end Parser

/-! ## Numbers -/

theorem ofDigitChars_lt {digits : Text} (h : ∀ c ∈ digits, c.isDigit = true) (init : Nat) :
    Nat.ofDigitChars 10 digits init < (init + 1) * 10 ^ digits.length := by
  induction digits generalizing init with
  | nil => simp
  | cons c digits ih =>
    have hdigit := Char.isDigit_iff_toNat.mp (h c mem_cons_self)
    have hc : c.toNat - '0'.toNat ≤ 9 := by
      have hzero : '0'.toNat = 48 := rfl
      have hnine : '9'.toNat = 57 := rfl
      omega
    rw [Nat.ofDigitChars_cons, length_cons, Nat.pow_succ, Nat.mul_comm _ 10, ← Nat.mul_assoc]
    refine lt_of_lt_of_le (ih (fun d hd => h d (mem_cons_of_mem c hd)) _) ?_
    exact Nat.mul_le_mul_right _ (by omega)

theorem descriptorNumber_eq {digits : Text} (hne : digits ≠ []) (hdigits : digits.all Char.isDigit)
    (hlength : digits.length ≤ 9) : descriptorNumber digits = Nat.ofDigitChars 10 digits 0 := by
  have hall : ∀ c ∈ digits, c.isDigit = true := all_eq_true.mp hdigits
  have hsign {c : Char} (hc : c.isDigit = false) (ds : List Char) : digits ≠ c :: ds := by
    rintro rfl
    rw [hall c mem_cons_self] at hc
    cases hc
  have hplus : Numeral.stripPlus digits = digits := by
    rw [Numeral.stripPlus.eq_def]
    split
    · exact absurd rfl (hsign (by decide) _)
    · rfl
  have hparse : Numeral.parseInt digits = some (Int.ofNat (Nat.ofDigitChars 10 digits 0)) := by
    rw [Numeral.parseInt.eq_def]
    split
    · exact absurd rfl (hsign (by decide) _)
    · rw [hplus, Numeral.parseDigits, if_pos ⟨hne, hdigits⟩]
      rfl
  have hlt : Nat.ofDigitChars 10 digits 0 < 10 ^ 9 := by
    have hbound := ofDigitChars_lt hall 0
    rw [Nat.zero_add, Nat.one_mul] at hbound
    exact lt_of_lt_of_le hbound (Nat.pow_le_pow_right (by decide) hlength)
  rw [descriptorNumber, hparse]
  have hrange : -(2 ^ 31) ≤ (Int.ofNat (Nat.ofDigitChars 10 digits 0)) ∧
      Int.ofNat (Nat.ofDigitChars 10 digits 0) < 2 ^ 31 := by
    constructor <;> simp only [Int.ofNat_eq_natCast] <;> omega
  exact if_pos hrange

/-! ## Words of digits -/

/-- The word that the lexer makes of digits. -/
def digitsWord (digits : Text) : List WordPart := [.Literal (strToBytes digits)]

theorem partsToText_digitsWord (h : digits.all Char.isDigit) :
    partsToText (digitsWord digits) = digits := by
  have hascii : Ascii.isAscii digits = true := by
    refine all_eq_true.mpr fun c hc => decide_eq_true ?_
    have hdigit := Char.isDigit_iff_toNat.mp (all_eq_true.mp h c hc)
    exact lt_of_le_of_lt hdigit.2 (by decide)
  rw [digitsWord, partsToText, partsToText, partText, append_nil,
    bytesToStr_strToBytes hascii]

/-- Where a word can be the descriptor of a redirection: in a simple command, or behind
a compound one. -/
inductive WordPlace where
  | simple (acc : Parser.SimpleAcc)
  | behind

/-- What the parser makes of the next token there. -/
def readPlace (env : ParserEnv) (rounds : Nat) (command : ParseM Command) :
    WordPlace → ParseM Parser.SimpleItem
  | .simple acc => Parser.nextItem env rounds command acc
  | .behind => do
    match ← Parser.nextRedir env rounds with
    | some redir => return .redir redir
    | none => return .stop

/-- The digits are the descriptor of a redirection. -/
def IsDescriptorOf (digits : Text) (item : Parser.SimpleItem) : Prop :=
  ∃ redir, item = .redir redir ∧ redir.fd = Nat.ofDigitChars 10 digits 0

/-- The word is an argument, or left to what comes behind the command. -/
def IsLeft (token : Token × Span) (parts : List WordPart)
    (item : Parser.SimpleItem) (s : ParserState) :
    WordPlace → Prop
  | .simple _ => item = .arg { parts }
  | .behind => item = .stop ∧ s.lexer.pushback = some token

namespace Parser

variable {env : ParserEnv} {rounds : Nat} {command : ParseM Command} {s t u : ParserState}
  {token : Token × Span} {span : Span}

theorem descriptorRedir_cases (ht : t.lexer.pushback = none)
    (h : descriptorRedir env rounds text t = some (.ok result, u)) :
    (startsRedir (dropBlanks t.lexer.src) = true ∧
        ∃ redir, result = some redir ∧ redir.fd = descriptorNumber text) ∨
      (startsRedir (dropBlanks t.lexer.src) = false ∧ result = none) := by
  unfold descriptorRedir at h
  obtain ⟨token, v, hpeek, h⟩ := bind_eq_ok h
  obtain ⟨w, hnext, rfl⟩ := next_of_peek hpeek
  rw [← next_isRedir ht hnext]
  obtain ⟨token, span⟩ := token
  dsimp only at h ⊢
  split at h
  · rename_i hredir
    obtain ⟨_, x, -, h⟩ := bind_eq_ok h
    obtain ⟨redir, y, -, h⟩ := bind_eq_ok h
    cases h
    exact .inl ⟨hredir, _, rfl, rfl⟩
  · rename_i hredir
    cases h
    exact .inr ⟨by simpa using hredir, rfl⟩

theorem wordItem_cases
    (h : wordItem env rounds command acc parts t = some (.ok item, u)) :
    item = .arg { parts } ∨ ∃ definition, item = .function definition := by
  unfold wordItem at h
  split at h
  · obtain ⟨token, v, -, h⟩ := bind_eq_ok h
    dsimp only at h
    split at h
    · obtain ⟨_, v, -, h⟩ := bind_eq_ok h
      obtain ⟨_, v, -, h⟩ := bind_eq_ok h
      obtain ⟨_, v, -, h⟩ := bind_eq_ok h
      obtain ⟨body, v, -, h⟩ := bind_eq_ok h
      cases h
      exact .inr ⟨_, rfl⟩
    · cases h
      exact .inl rfl
  · cases h
    exact .inl rfl

end Parser

theorem isDescriptor_iff {digits : Text} (hne : digits ≠ []) (hdigits : digits.all Char.isDigit) :
    isDescriptor digits = true ↔ digits.length ≤ 9 := by
  simp [isDescriptor, hne, hdigits]

theorem IsLeft.not_descriptor
    (h : IsLeft token parts item s place) : ¬ IsDescriptorOf digits item := by
  rintro ⟨redir, rfl, -⟩
  cases place with
  | simple acc => cases h
  | behind => cases h.1

section

variable {env : ParserEnv} {rounds : Nat} {command : ParseM Command} {s t u : ParserState}
  {span : Span} {digits : Text} {place : WordPlace} {item : Parser.SimpleItem}

theorem readPlace_cases (hne : digits ≠ []) (hdigits : digits.all Char.isDigit)
    (hword : Parser.next env rounds s = some (.ok (.Word (digitsWord digits) false, span), t))
    (hitem : readPlace env rounds command place s = some (.ok item, u))
    (hcommand : ∀ definition, item ≠ .function definition) :
    (digits.length ≤ 9 ∧ startsRedir (dropBlanks t.lexer.src) = true ∧
        IsDescriptorOf digits item) ∨
      ((9 < digits.length ∨ startsRedir (dropBlanks t.lexer.src) = false) ∧
        IsLeft (.Word (digitsWord digits) false, span) (digitsWord digits) item u place) := by
  have ht := Parser.next_pushback hword
  have hpeek := Parser.peek_of_next hword
  have htext := partsToText_digitsWord hdigits
  have hnumber (hlength : digits.length ≤ 9) {redir : Redir}
      (hfd : redir.fd = descriptorNumber digits) : redir.fd = Nat.ofDigitChars 10 digits 0 := by
    rw [hfd, descriptorNumber_eq hne hdigits hlength]
  cases place with
  | simple acc =>
    have hleft {v : ParserState} (h : Parser.wordItem env rounds command acc
        (digitsWord digits) v = some (.ok item, u)) :
        item = .arg { parts := digitsWord digits } := by
      obtain rfl | ⟨definition, rfl⟩ := Parser.wordItem_cases h
      · rfl
      · exact absurd rfl (hcommand definition)
    rw [readPlace, Parser.nextItem, bind_ok hpeek] at hitem
    dsimp only at hitem
    rw [bind_ok (Parser.skip_pushed ht), htext, Bool.not_false, Bool.true_and] at hitem
    by_cases hlength : digits.length ≤ 9
    · rw [if_pos ((isDescriptor_iff hne hdigits).mpr hlength)] at hitem
      obtain ⟨result, v, hresult, hitem⟩ := bind_eq_ok hitem
      obtain ⟨hstarts, redir, rfl, hfd⟩ | ⟨hstarts, rfl⟩ :=
        Parser.descriptorRedir_cases ht hresult
      · cases hitem
        exact .inl ⟨hlength, hstarts, redir, rfl, hnumber hlength hfd⟩
      · exact .inr ⟨.inr hstarts, hleft hitem⟩
    · rw [if_neg fun h => hlength ((isDescriptor_iff hne hdigits).mp h)] at hitem
      exact .inr ⟨.inl (Nat.lt_of_not_le hlength), hleft hitem⟩
  | behind =>
    rw [readPlace, Parser.nextRedir] at hitem
    obtain ⟨taken, v, htaken, hitem⟩ := bind_eq_ok hitem
    rw [bind_ok hpeek] at htaken
    dsimp only at htaken
    rw [htext] at htaken
    by_cases hlength : digits.length ≤ 9
    · rw [if_pos ((isDescriptor_iff hne hdigits).mpr hlength),
        bind_ok (Parser.skip_pushed ht)] at htaken
      obtain ⟨result, w, hresult, htaken⟩ := bind_eq_ok htaken
      obtain ⟨hstarts, redir, rfl, hfd⟩ | ⟨hstarts, rfl⟩ :=
        Parser.descriptorRedir_cases ht hresult
      · cases htaken
        cases hitem
        exact .inl ⟨hlength, hstarts, redir, rfl, hnumber hlength hfd⟩
      · cases htaken
        cases hitem
        exact .inr ⟨.inr hstarts, rfl, rfl⟩
    · rw [if_neg fun h => hlength ((isDescriptor_iff hne hdigits).mp h)] at htaken
      cases htaken
      cases hitem
      exact .inr ⟨.inl (Nat.lt_of_not_le hlength), rfl, rfl⟩

/-- The digits are a descriptor if and only if the operator is the next character of the
source `t` behind them, and are left as they are otherwise. -/
def ByAdjacency (digits : Text) (token : Token × Span) (item : Parser.SimpleItem)
    (t u : ParserState) (place : WordPlace) : Prop :=
  (IsDescriptorOf digits item ↔ startsRedir t.lexer.src = true) ∧
    (startsRedir t.lexer.src = false → IsLeft token (digitsWord digits) item u place)

/-- The source goes on with a redirection, but behind blanks. -/
def Separated (src : List Char) : Prop :=
  startsRedir src = false ∧ startsRedir (dropBlanks src) = true

theorem startsRedir_dropBlanks (h : startsRedir src = true) :
    startsRedir (dropBlanks src) = true := by
  rw [dropBlanks.eq_def]
  split
  · cases h
  · cases h
  · cases h
  · exact h

/-- **A word of digits** goes by what is next to it, if it has at most nine digits and no
blanks stand between it and a redirection, or if it has more and is not next to one. -/
theorem byAdjacency_iff (hne : digits ≠ []) (hdigits : digits.all Char.isDigit)
    (hword : Parser.next env rounds s = some (.ok (.Word (digitsWord digits) false, span), t))
    (hitem : readPlace env rounds command place s = some (.ok item, u))
    (hcommand : ∀ definition, item ≠ .function definition) :
    ByAdjacency digits (.Word (digitsWord digits) false, span) item t u place ↔
      (digits.length ≤ 9 ∧ ¬ Separated t.lexer.src) ∨
        (9 < digits.length ∧ startsRedir t.lexer.src = false) := by
  rw [ByAdjacency, Separated]
  obtain ⟨hlength, hstarts, hdescriptor⟩ | ⟨hreason, hleft⟩ :=
    readPlace_cases hne hdigits hword hitem hcommand
  · cases hadjacent : startsRedir t.lexer.src with
    | true => simp [hdescriptor, hlength]
    | false => simp [hdescriptor, hlength, hstarts]
  · have hnot : ¬ IsDescriptorOf digits item := hleft.not_descriptor
    cases hadjacent : startsRedir t.lexer.src with
    | true =>
      have hlong : 9 < digits.length := by
        rcases hreason with hlong | hstarts
        · exact hlong
        · rw [startsRedir_dropBlanks hadjacent] at hstarts
          cases hstarts
      simp [hnot, Nat.not_le.mpr hlong]
    | false =>
      simp only [hnot, hleft, Bool.false_eq_true, true_and, and_true, forall_const, true_iff]
      rcases hreason with hlong | hstarts
      · exact .inr hlong
      · by_cases hlength : digits.length ≤ 9
        · exact .inl ⟨hlength, by simp [hstarts]⟩
        · exact .inr (Nat.lt_of_not_le hlength)

end

/-! ## A number that blanks follow -/

/-- A parser of sources without enclosed texts and here-documents. -/
def ParserEnv.plain : ParserEnv where
  parseCmdsubstContent _ _ := .ok (.Simple [] [] [] {})
  parseWordPartsShell _ text := .ok [.Literal (strToBytes text)]
  parseWordPartsHeredoc _ text := .ok [.Literal (strToBytes text)]
  debug _ := []

def ParserState.ofText (src : Text) : ParserState where
  lexer := { src }

/-- The arguments in front of the number. -/
def afterEcho : WordPlace := .simple { args := [{ parts := [.Literal [0x65]] }] }

/-- In `e 2 > f` the number is read as the descriptor. -/
theorem separated_number_is_descriptor : ∃ t u item,
    Parser.next .plain 8 (.ofText ['2', ' ', '>', ' ', 'f']) =
      some (.ok (.Word (digitsWord ['2']) false, ⟨0, 1, 1⟩), t) ∧
    readPlace .plain 8 Process.diverge afterEcho (.ofText ['2', ' ', '>', ' ', 'f']) =
      some (.ok item, u) ∧
    ¬ ByAdjacency ['2'] (.Word (digitsWord ['2']) false, ⟨0, 1, 1⟩) item t u afterEcho := by
  have hword : ∃ t, Parser.next .plain 8 (.ofText ['2', ' ', '>', ' ', 'f']) =
      some (.ok (.Word (digitsWord ['2']) false, ⟨0, 1, 1⟩), t) ∧
      startsRedir t.lexer.src = false ∧ startsRedir (dropBlanks t.lexer.src) = true :=
    ⟨_, rfl, rfl, rfl⟩
  have hitem : ∃ redir u, readPlace .plain 8 Process.diverge afterEcho
      (.ofText ['2', ' ', '>', ' ', 'f']) = some (.ok (.redir redir), u) := ⟨_, _, rfl⟩
  obtain ⟨t, hword, hadjacent, hstarts⟩ := hword
  obtain ⟨redir, u, hitem⟩ := hitem
  refine ⟨t, u, .redir redir, hword, hitem, fun h => ?_⟩
  obtain ⟨-, -, hdescriptor⟩ | ⟨hlong | hnone, -⟩ :=
    readPlace_cases (by decide) (by decide) hword hitem nofun
  · rw [h.1.mp hdescriptor] at hadjacent
    cases hadjacent
  · exact absurd hlong (by decide)
  · rw [hstarts] at hnone
    cases hnone

/-- In `e 2> f` it is next to the operator. -/
theorem byAdjacency_iff_next : ∃ t u item,
    ByAdjacency ['2'] (.Word (digitsWord ['2']) false, ⟨0, 1, 1⟩) item t u afterEcho ↔
      (['2'].length ≤ 9 ∧ ¬ Separated t.lexer.src) ∨
        (9 < ['2'].length ∧ startsRedir t.lexer.src = false) := by
  have hword : ∃ t, Parser.next .plain 8 (.ofText ['2', '>', ' ', 'f']) =
      some (.ok (.Word (digitsWord ['2']) false, ⟨0, 1, 1⟩), t) := ⟨_, rfl⟩
  have hitem : ∃ redir u, readPlace .plain 8 Process.diverge afterEcho
      (.ofText ['2', '>', ' ', 'f']) = some (.ok (.redir redir), u) := ⟨_, _, rfl⟩
  obtain ⟨t, hword⟩ := hword
  obtain ⟨redir, u, hitem⟩ := hitem
  exact ⟨t, u, .redir redir, byAdjacency_iff (by decide) (by decide) hword hitem nofun⟩

end Ish.Epsh
