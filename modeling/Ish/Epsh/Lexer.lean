import Ish.Epsh.Lists
import Ish.Lib.Process
import Ish.Lib.Text

/-!
# The lexer

The model of `crates/epsh/src/lexer.rs`: tokens, words and their parts, and the raw
scan of what is enclosed in `$( )`, `$(( ))` and backquotes. The source is what is left
of it; what the parser makes of enclosed text is a parameter. Every loop takes fuel,
and a run that needs more has no result.
-/

namespace Ish.Epsh

open Ish.Lib

/-! ## The state -/

structure SyntaxError where
  msg : Text
  span : Span
deriving DecidableEq

structure PendingHereDoc where
  delimiter : ShellBytes
  strip_tabs : Bool
  quoted : Bool
deriving DecidableEq

/-- The lexer, with `src` from its position on. `nesting` is the thread's depth. -/
structure LexerState where
  src : List Char
  source_offset : Nat := 0
  encoding_prefix : Bool := false
  line : Nat := 1
  col : Nat := 1
  nesting : Nat := 0
  pushback : Option (Token × Span) := none
  recognize_reserved : Bool := true
  pending_heredocs : List PendingHereDoc := []

def MAX_NESTING_DEPTH : Nat := 32

abbrev LexM := Process Empty SyntaxError LexerState

/-- What the parser makes of enclosed text, at a depth of nesting. -/
structure Nested where
  parseCmdsubstContent : Nat → Text → Except SyntaxError Command
  parseWordPartsShell : Nat → Text → Except SyntaxError (List WordPart)

namespace LexerState

/-- `Lexer::new_bytes` -/
def newBytes (source : List UInt8) : LexerState where
  src := bytesToStr source

def span (s : LexerState) : Span := ⟨s.source_offset, s.line, s.col⟩

/-- After one character. -/
def advanced (s : LexerState) : LexerState :=
  match s.src with
  | [] => s
  | ch :: src =>
    if ch = ESCAPE ∧ s.encoding_prefix = false then { s with src, encoding_prefix := true }
    else if ch = '\n' then
      { s with src, encoding_prefix := false, source_offset := s.source_offset + 1,
               line := s.line + 1, col := 1 }
    else
      { s with src, encoding_prefix := false, source_offset := s.source_offset + 1,
               col := s.col + 1 }

/-- After the line continuations that `src` starts with. -/
def skipContinuations : List Char → LexerState → LexerState
  | '\\' :: '\n' :: src, s => skipContinuations src s.advanced.advanced
  | _, s => s

def atChar (s : LexerState) : LexerState := skipContinuations s.src s

end LexerState

def lexError {α : Type} (msg : Text) (span : Span) : LexM α := Process.fail ⟨msg, span⟩

/-- `NestingGuard`: the depth is put back however `x` ends. -/
def guarded {α : Type} (span : Span) (x : LexM α) : LexM α := fun s =>
  if MAX_NESTING_DEPTH ≤ s.nesting then
    some (.error ⟨"nesting deeper than 32 levels".toList, span⟩, s)
  else (x { s with nesting := s.nesting + 1 }).map fun r => (r.1, { r.2 with nesting := s.nesting })

def currentSpan : LexM Span := do return (← get).span

def peekRaw : LexM (Option Char) := do return (← get).src.head?

def peekChar : LexM (Option Char) := modifyGet fun s => (s.atChar.src.head?, s.atChar)

def advanceRaw : LexM (Option Char) := modifyGet fun s => (s.src.head?, s.advanced)

def advance : LexM (Option Char) := do
  match ← peekChar with
  | none => return none
  | some _ => advanceRaw

/-- Consume a character that has been looked at. -/
def skipChar : LexM Unit := do
  let _ ← advance

/-! ## Blanks and operators -/

/-- To the end of a comment, over line continuations as well. -/
def skipComment : Nat → LexM Unit
  | 0 => Process.diverge
  | n + 1 => do
    match ← peekRaw with
    | none | some '\n' => return ()
    | some _ => do
      let _ ← advanceRaw
      skipComment n

def skipBlanks : Nat → LexM Unit
  | 0 => Process.diverge
  | n + 1 => do
    match ← peekChar with
    | some ' ' | some '\t' => do
      skipChar
      skipBlanks n
    | some '#' => do
      skipComment n
      skipBlanks n
    | _ => return ()

/-- An operator of which `ch` has been read, when the next character is in `longer`. -/
def operatorAfter (short : Token) (longer : List (Char × Token)) : LexM Token := do
  match ← peekChar with
  | some ch =>
    match longer.lookup ch with
    | some token => do
      skipChar
      return token
    | none => return short
  | none => return short

/-- The operator `<<`, or `<<-`. -/
def lessOperator : LexM Token := do
  match ← operatorAfter .Less [('<', .DLess), ('&', .LessAnd), ('>', .LessGreat)] with
  | .DLess => operatorAfter .DLess [('-', .DLessDash)]
  | token => return token

/-- `try_operator` -/
def tryOperator : LexM (Option Token) := do
  match ← peekChar with
  | some ';' => do skipChar; some <$> operatorAfter .Semi [(';', .SemiSemi)]
  | some '&' => do skipChar; some <$> operatorAfter .Amp [('&', .And)]
  | some '|' => do skipChar; some <$> operatorAfter .Pipe [('|', .Or)]
  | some '(' => do skipChar; return some .LParen
  | some ')' => do skipChar; return some .RParen
  | some '<' => do skipChar; some <$> lessOperator
  | some '>' => do
    skipChar
    some <$> operatorAfter .Great [('>', .DGreat), ('&', .GreatAnd), ('|', .Clobber)]
  | _ => return none

/-! ## Names -/

def startsName (c : Char) : Bool := c == '_' || c.isAlpha

def continuesName (c : Char) : Bool := c == '_' || c.isAlphanum

/-- Read characters as long as `p` holds of them. -/
def takeChars (p : Char → Bool) : Nat → Text → LexM Text
  | 0, _ => Process.diverge
  | n + 1, text => do
    match ← peekChar with
    | some c =>
      if p c then do
        skipChar
        takeChars p n (text ++ [c])
      else return text
    | none => return text

def isParamSign (c : Char) : Bool :=
  c == '@' || c == '*' || c == '#' || c == '?' || c == '-' || c == '$' || c == '!'

/-- `read_param_name` -/
def readParamName (n : Nat) : LexM Text := do
  match ← peekChar with
  | some c =>
    if isParamSign c then do
      skipChar
      return [c]
    else if c.isDigit then takeChars Char.isDigit n []
    else takeChars continuesName n []
  | none => return []

/-- `is_name` -/
def isName : Text → Bool
  | c :: rest => startsName c && rest.all continuesName
  | [] => false

def plainParam (name : Text) : WordPart := .Param ⟨name, .Normal, {}⟩

/-! ## Raw scans -/

/-- `unbalanced_arith_close` -/
def unbalancedArithClose (depth : Nat) (span : Span) : LexM Nat :=
  if depth = 0 then lexError "unbalanced ) in $((".toList span else return depth - 1

/-- To the closing quote of a single-quoted text in `$( )`, which is kept. -/
def readSingleQuotedRaw (span : Span) : Nat → Text → LexM Text
  | 0, _ => Process.diverge
  | n + 1, content => do
    match ← advance with
    | none => lexError "unterminated single quote in $()".toList span
    | some '\'' => return content ++ ['\'']
    | some c => readSingleQuotedRaw span n (content ++ [c])

/-- A backslash and what it quotes. -/
def readEscapedRaw (content : Text) : LexM Text := do
  match ← advance with
  | some c => return content ++ ['\\', c]
  | none => return content ++ ['\\']

/-- `read_backtick_raw` -/
def readBacktickRaw (span : Span) : Nat → Text → LexM Text
  | 0, _ => Process.diverge
  | n + 1, content => do
    match ← advance with
    | none => lexError "unterminated backtick".toList span
    | some '`' => return content
    | some '\\' => do readBacktickRaw span n (← readEscapedRaw content)
    | some c => readBacktickRaw span n (content ++ [c])

/-- To the end of a comment in `$( )`; `peek` says whether continuations end it. -/
def readCommentRaw (peek step : LexM (Option Char)) : Nat → Text → LexM Text
  | 0, _ => Process.diverge
  | n + 1, content => do
    match ← peek with
    | none | some '\n' => return content
    | some c => do
      let _ ← step
      readCommentRaw peek step n (content ++ [c])

mutual

/-- `read_double_quoted_raw` -/
def readDoubleQuotedRaw (span : Span) : Nat → Text → LexM Text
  | 0, _ => Process.diverge
  | n + 1, content => do
    match ← advance with
    | none => lexError "unterminated double quote".toList span
    | some '"' => return content
    | some '\\' => do readDoubleQuotedRaw span n (← readEscapedRaw content)
    | some '$' => do
      let content ← readDollarRaw span n (content ++ ['$'])
      readDoubleQuotedRaw span n content
    | some '`' => do
      let content ← readBacktickRaw span n (content ++ ['`'])
      readDoubleQuotedRaw span n (content ++ ['`'])
    | some c => readDoubleQuotedRaw span n (content ++ [c])

/-- `read_dollar_raw` -/
def readDollarRaw (span : Span) : Nat → Text → LexM Text
  | 0, _ => Process.diverge
  | n + 1, content => guarded span do
      match ← peekChar with
      | some '{' => do
        skipChar
        return (← readBraceParamRaw span n 1 (content ++ ['{'])) ++ ['}']
      | some '(' => do
        skipChar
        match ← peekChar with
        | some '(' => do
          skipChar
          return (← readArithRaw span n 1 (content ++ ['(', '('])) ++ [')', ')']
        | _ => return (← readCmdSubstNestedRaw span n 1 (content ++ ['('])) ++ [')']
      | some c =>
        if isParamSign c || c.isDigit then do
          skipChar
          return content ++ [c]
        else if startsName c then do
          skipChar
          takeChars continuesName n (content ++ [c])
        else return content
      | none => return content

/-- `read_brace_param_raw` -/
def readBraceParamRaw (span : Span) : Nat → Nat → Text → LexM Text
  | 0, _, _ => Process.diverge
  | n + 1, depth, content => do
    match ← advance with
    | none => lexError "unterminated $\x7b".toList span
    | some '}' =>
      if depth = 1 then return content
      else readBraceParamRaw span n (depth - 1) (content ++ ['}'])
    | some '$' => do
      let content ← readDollarRaw span n (content ++ ['$'])
      readBraceParamRaw span n depth content
    | some '"' => do
      let content ← readDoubleQuotedRaw span n (content ++ ['"'])
      readBraceParamRaw span n depth (content ++ ['"'])
    | some '\\' => do readBraceParamRaw span n depth (← readEscapedRaw content)
    | some '`' => do
      let content ← readBacktickRaw span n (content ++ ['`'])
      readBraceParamRaw span n depth (content ++ ['`'])
    | some c => readBraceParamRaw span n depth (content ++ [c])

/-- `read_cmd_subst_nested_raw` -/
def readCmdSubstNestedRaw (span : Span) : Nat → Nat → Text → LexM Text
  | 0, _, _ => Process.diverge
  | n + 1, depth, content => do
    match ← advance with
    | none => lexError "unterminated $(".toList span
    | some ')' =>
      if depth = 1 then return content
      else readCmdSubstNestedRaw span n (depth - 1) (content ++ [')'])
    | some '(' => readCmdSubstNestedRaw span n (depth + 1) (content ++ ['('])
    | some '\'' => do
      let content ← readSingleQuotedRaw span n (content ++ ['\''])
      readCmdSubstNestedRaw span n depth content
    | some '"' => do
      let content ← readDoubleQuotedRaw span n (content ++ ['"'])
      readCmdSubstNestedRaw span n depth (content ++ ['"'])
    | some '\\' => do readCmdSubstNestedRaw span n depth (← readEscapedRaw content)
    | some '$' => do
      let content ← readDollarRaw span n (content ++ ['$'])
      readCmdSubstNestedRaw span n depth content
    | some '`' => do
      let content ← readBacktickRaw span n (content ++ ['`'])
      readCmdSubstNestedRaw span n depth (content ++ ['`'])
    | some '#' => do
      let content ← readCommentRaw peekChar advance n (content ++ ['#'])
      readCmdSubstNestedRaw span n depth content
    | some c => readCmdSubstNestedRaw span n depth (content ++ [c])

/-- `read_arith_raw` -/
def readArithRaw (span : Span) : Nat → Nat → Text → LexM Text
  | 0, _, _ => Process.diverge
  | n + 1, depth, content => do
    match ← advance with
    | none => lexError "unterminated $((".toList span
    | some ')' => do
      if (← peekChar) = some ')' ∧ depth = 1 then
        skipChar
        return content
      else
        let depth ← unbalancedArithClose depth span
        readArithRaw span n depth (content ++ [')'])
    | some '(' => readArithRaw span n (depth + 1) (content ++ ['('])
    | some '$' => do
      let content ← readDollarRaw span n (content ++ ['$'])
      readArithRaw span n depth content
    | some c => readArithRaw span n depth (content ++ [c])

end

/-- `read_cmd_subst_raw`: its comments, unlike those of `read_cmd_subst_nested_raw`, are
not continued by a backslash. -/
def readCmdSubstRaw (span : Span) : Nat → Nat → Text → LexM Text
  | 0, _, _ => Process.diverge
  | n + 1, depth, content => do
    match ← advance with
    | none => lexError "unterminated $(".toList span
    | some ')' =>
      if depth = 1 then return content
      else readCmdSubstRaw span n (depth - 1) (content ++ [')'])
    | some '(' => readCmdSubstRaw span n (depth + 1) (content ++ ['('])
    | some '\'' => do
      let content ← readSingleQuotedRaw span n (content ++ ['\''])
      readCmdSubstRaw span n depth content
    | some '"' => do
      let content ← readDoubleQuotedRaw span n (content ++ ['"'])
      readCmdSubstRaw span n depth (content ++ ['"'])
    | some '\\' => do readCmdSubstRaw span n depth (← readEscapedRaw content)
    | some '$' => do
      let content ← readDollarRaw span n (content ++ ['$'])
      readCmdSubstRaw span n depth content
    | some '`' => do
      let content ← readBacktickRaw span n (content ++ ['`'])
      readCmdSubstRaw span n depth (content ++ ['`'])
    | some '#' => do
      let content ← readCommentRaw peekRaw advanceRaw n (content ++ ['#'])
      readCmdSubstRaw span n depth content
    | some c => readCmdSubstRaw span n depth (content ++ [c])

/-! ## Words -/

/-- `coalesce_literals`, with the last part so far. -/
def coalesceFrom (last : WordPart) : List WordPart → List WordPart
  | [] => [last]
  | part :: parts =>
    match last, part with
    | .Literal prev, .Literal s => coalesceFrom (.Literal (prev ++ s)) parts
    | last, part => last :: coalesceFrom part parts

def coalesceLiterals : List WordPart → List WordPart
  | [] => []
  | part :: parts => coalesceFrom part parts

/-- `rebase_nested_parse_error` -/
def SyntaxError.rebase (error : SyntaxError) (base : Span) : SyntaxError :=
  let offset := error.span.offset + base.offset
  if error.span.line = 0 then { error with span := { base with offset } }
  else
    let line := error.span.line + (base.line - 1)
    let col := if line = base.line then error.span.col + (base.col - 1) else error.span.col
    { error with span := { offset, line, col } }

/-- Whether a word is all of a shell word, or what stands in `${ }`. -/
inductive WordCtx where
  | Word
  | Brace
deriving DecidableEq

/-- A word being read. -/
structure WordAcc where
  parts : List WordPart := []
  literal : Text := []
  had_quoting : Bool
  brace_depth : Nat := 1

namespace WordAcc

def push (acc : WordAcc) (c : Char) : WordAcc := { acc with literal := acc.literal ++ [c] }

def flush (acc : WordAcc) : WordAcc :=
  if acc.literal.isEmpty then acc
  else { acc with parts := acc.parts ++ [.Literal (strToBytes acc.literal)], literal := [] }

def add (acc : WordAcc) (part : WordPart) : WordAcc := { acc with parts := acc.parts ++ [part] }

def quoting (acc : WordAcc) : WordAcc := { acc with had_quoting := true }

/-- The word as it has been read. -/
def result (acc : WordAcc) : List WordPart × Bool :=
  (coalesceLiterals acc.flush.parts, acc.had_quoting)

def isBlank (acc : WordAcc) : Bool := acc.parts.isEmpty && acc.literal.isEmpty

end WordAcc

/-- Characters that end a word outside quotes. -/
def isWordEnd (c : Char) : Bool :=
  c == ' ' || c == '\t' || c == '\n' || c == ';' || c == '&' || c == '(' || c == ')' || c == '|' ||
    c == '<' || c == '>'

/-- Whether `c` ends the word, and is left in the source. -/
def endsWord (ctx : WordCtx) (in_dquote : Bool) (acc : WordAcc) (c : Char) : Bool :=
  ctx == .Word &&
    if in_dquote then c == '"' else isWordEnd c || (c == '#' && acc.isBlank)

def endsUser (c : Char) : Bool :=
  c == '/' || c == ':' || Text.isWhitespace c || c == ';' || c == '&' || c == '|' || c == '<' ||
    c == '>' || c == '(' || c == ')'

/-- What a backslash escapes in double quotes. -/
def isDquoteEscaped (c : Char) : Bool :=
  c == '$' || c == '`' || c == '"' || c == '\\' || c == '\n'

/-- The text in single quotes. -/
def readSingleQuoted (span : Span) : Nat → Text → LexM Text
  | 0, _ => Process.diverge
  | n + 1, content => do
    match ← advanceRaw with
    | none => lexError "unterminated single quote".toList span
    | some '\'' => return content
    | some c => readSingleQuoted span n (content ++ [c])

/-- A backslash in double quotes, which has been read. -/
def readDquoteEscape (ctx : WordCtx) (acc : WordAcc) : LexM WordAcc := do
  match ← advance with
  | none => return acc
  | some c =>
    if ctx = .Brace ∧ c = '}' then return acc.push c
    else if isDquoteEscaped c then return if c = '\n' then acc else acc.push c
    else return (acc.push '\\').push c

/-- A backslash outside quotes, which has been read. An escaped character is as if it
stood in double quotes; an encoded one is two characters. -/
def readEscape (ctx : WordCtx) (acc : WordAcc) : LexM WordAcc := do
  match ← advance with
  | none => return acc
  | some escaped =>
    if ctx = .Brace then return acc.push escaped
    else
      let literal_char ← if escaped = ESCAPE then advance else pure none
      return acc.flush.add (.DoubleQuoted [.Literal (strToBytes (escaped :: literal_char.toList))])

/-- `skip_to_close_brace` -/
def skipToCloseBrace (span : Span) : Nat → LexM Unit
  | 0 => Process.diverge
  | n + 1 => do
    match ← advance with
    | some '}' => return ()
    | none => lexError "unterminated $\x7b".toList span
    | some _ => skipToCloseBrace span n

/-- Whether `#` after `${` asks for a length. -/
def asksLength : List Char → Bool
  | '#' :: n :: rest =>
    if startsName n then true
    else if n = '}' then false
    else if isParamSign n then rest.head? == some '}'
    else n.isDigit
  | _ => false

/-- Give an enclosed text to the parser. -/
def nestedResult {α : Type} (base : Span) (result : Except SyntaxError α) : LexM α :=
  match result with
  | .ok a => return a
  | .error e => Process.fail (e.rebase base)

section

variable (nested : Nested)

/-- `read_cmd_subst` -/
def readCmdSubst (n : Nat) (span : Span) : LexM WordPart := do
  let content_span ← currentSpan
  let content ← readCmdSubstRaw span n 1 []
  .CmdSubst <$> nestedResult content_span
    (nested.parseCmdsubstContent (← get).nesting content)

/-- The text of `read_backtick_part`. -/
def readBacktickText (span : Span) : Nat → Text → LexM Text
  | 0, _ => Process.diverge
  | n + 1, content => do
    match ← advance with
    | none => lexError "unterminated backtick".toList span
    | some '`' => return content
    | some '\\' => do
      match ← advance with
      | some c =>
        readBacktickText span n
          (if c = '$' ∨ c = '`' ∨ c = '\\' ∨ c = '"' then content ++ [c]
            else content ++ ['\\', c])
      | none => readBacktickText span n content
    | some c => readBacktickText span n (content ++ [c])

/-- `read_backtick_part` -/
def readBacktickPart (n : Nat) (span : Span) : LexM WordPart := do
  let content_span ← currentSpan
  let content ← readBacktickText span n []
  .Backtick <$> nestedResult content_span
    (nested.parseCmdsubstContent (← get).nesting content)

/-- The text of `read_arith_expansion`. -/
def readArithText (span : Span) : Nat → Nat → Text → LexM Text
  | 0, _, _ => Process.diverge
  | n + 1, depth, content => do
    match ← advance with
    | none => lexError "unterminated $((".toList span
    | some ')' => do
      if (← peekChar) = some ')' ∧ depth = 1 then
        skipChar
        return content
      else
        let depth ← unbalancedArithClose depth span
        readArithText span n depth (content ++ [')'])
    | some '(' => readArithText span n (depth + 1) (content ++ ['('])
    | some '$' => do
      let content ← readDollarRaw span n (content ++ ['$'])
      readArithText span n depth content
    | some c => readArithText span n depth (content ++ [c])

/-- `read_arith_expansion` -/
def readArithExpansion (n : Nat) (span : Span) : LexM WordPart := guarded span do
  let content_span ← currentSpan
  let content ← readArithText span n 1 []
  .Arith <$> nestedResult content_span
    (nested.parseWordPartsShell (← get).nesting content)

mutual

/-- The loop of `read_word_parts`. -/
def readWordLoop (span : Span) (ctx : WordCtx) (in_dquote : Bool) :
    Nat → WordAcc → LexM (List WordPart × Bool)
  | 0, _ => Process.diverge
  | n + 1, acc => do
    match ← peekChar with
    | none =>
      if ctx = .Brace then lexError "unterminated $\x7b".toList span else return acc.result
    | some ch =>
      if endsWord ctx in_dquote acc ch then return acc.result
      else if ctx = .Brace ∧ ch = '}' then do
        let acc := { acc with brace_depth := acc.brace_depth - 1 }
        skipChar
        if acc.brace_depth = 0 then return acc.result
        else readWordLoop span ctx in_dquote n (acc.push '}')
      else do
        readWordLoop span ctx in_dquote n (← readWordPart span ctx in_dquote n acc ch)

/-- One round of that loop, at the character `ch`. -/
def readWordPart (span : Span) (ctx : WordCtx) (in_dquote : Bool) :
    Nat → WordAcc → Char → LexM WordAcc
  | 0, _, _ => Process.diverge
  | n + 1, acc, '"' => do
    skipChar
    if !in_dquote then
      let inner ← readDquoteParts span n
      return acc.flush.quoting.add (.DoubleQuoted inner)
    else if ctx = .Brace then
      let inner ← readBraceDquoteToggleParts span n [] []
      return { acc.flush with parts := acc.flush.parts ++ inner }
    else return acc.push '"'
  | n + 1, acc, '\'' =>
    if in_dquote then do
      skipChar
      return acc.push '\''
    else do
      let _ ← advanceRaw
      let content ← readSingleQuoted span n []
      return acc.flush.quoting.add (.SingleQuoted (strToBytes content))
  | _ + 1, acc, '\\' => do
    skipChar
    if in_dquote then readDquoteEscape ctx acc.quoting else readEscape ctx acc.quoting
  | n + 1, acc, '$' => do
    skipChar
    match ← readDollar span in_dquote n with
    | some part => return acc.flush.add part
    | none => return acc.flush.push '$'
  | n + 1, acc, '`' => do
    skipChar
    return acc.flush.add (← readBacktickPart nested n span)
  | n + 1, acc, ch => do
    skipChar
    if ch = '~' ∧ ctx = .Word ∧ !in_dquote ∧ acc.isBlank then
      let user ← takeChars (fun c => !endsUser c) n []
      return acc.add (.Tilde (strToBytes user))
    else return acc.push ch

/-- `read_dquote_parts` -/
def readDquoteParts (span : Span) : Nat → LexM (List WordPart)
  | 0 => Process.diverge
  | n + 1 => do
    let (parts, _) ← readWordLoop span .Word true n { had_quoting := true }
    match ← peekChar with
    | some '"' => do
      skipChar
      return parts
    | _ => lexError "unterminated double quote".toList span

/-- `read_dollar` -/
def readDollar (span : Span) (in_dquote : Bool) : Nat → LexM (Option WordPart)
  | 0 => Process.diverge
  | n + 1 => do
    match ← peekChar with
    | some '{' => do
      skipChar
      some <$> readBraceParam span in_dquote n
    | some '(' => do
      skipChar
      match ← peekChar with
      | some '(' => do
        skipChar
        some <$> readArithExpansion nested n span
      | _ => some <$> readCmdSubst nested n span
    | some c =>
      if isParamSign c || c.isDigit then do
        skipChar
        return some (plainParam [c])
      else if startsName c then do
        skipChar
        return some (plainParam (← takeChars continuesName n [c]))
      else return none
    | none => return none

/-- `read_brace_param` -/
def readBraceParam (span : Span) (in_dquote : Bool) : Nat → LexM WordPart
  | 0 => Process.diverge
  | n + 1 => guarded span do
      let _ ← peekChar
      let length := asksLength (← get).src
      if length then skipChar
      let name ← readParamName n
      if length then
        skipToCloseBrace span n
        return .Param ⟨name, .Length, {}⟩
      else
        match ← peekChar with
        | some '}' => do
          skipChar
          return plainParam name
        | none => lexError "unterminated $\x7b".toList span
        | some op_char => do
          skipChar
          match ← readParamOp span in_dquote n op_char with
          | some op => return .Param ⟨name, op, {}⟩
          | none => do
            skipToCloseBrace span n
            return .Param ⟨name ++ [op_char], .BadSubst, {}⟩

/-- The operator that starts with `op_char`, and its word; none if there is none. -/
def readParamOp (span : Span) (in_dquote : Bool) : Nat → Char → LexM (Option ParamOp)
  | 0, _ => Process.diverge
  | n + 1, op_char => do
    let word (in_dquote : Bool) : LexM (List WordPart) :=
      Prod.fst <$> readWordLoop span .Brace in_dquote n { had_quoting := in_dquote }
    match op_char with
    | ':' => do
      match ← peekChar with
      | some '-' => do skipChar; return some (.Default true (← word in_dquote))
      | some '=' => do skipChar; return some (.Assign true (← word in_dquote))
      | some '?' => do skipChar; return some (.Error true (← word in_dquote))
      | some '+' => do skipChar; return some (.Alternative true (← word in_dquote))
      | _ => do
        skipToCloseBrace span n
        return some .Normal
    | '-' => return some (.Default false (← word in_dquote))
    | '=' => return some (.Assign false (← word in_dquote))
    | '?' => return some (.Error false (← word in_dquote))
    | '+' => return some (.Alternative false (← word in_dquote))
    | '%' => do
      if (← peekChar) = some '%' then
        skipChar
        return some (.TrimSuffixLarge (← word false))
      else return some (.TrimSuffixSmall (← word false))
    | '#' => do
      if (← peekChar) = some '#' then
        skipChar
        return some (.TrimPrefixLarge (← word false))
      else return some (.TrimPrefixSmall (← word false))
    | _ => return none

/-- `read_brace_dquote_toggle_parts` -/
def readBraceDquoteToggleParts (span : Span) :
    Nat → List WordPart → Text → LexM (List WordPart)
  | 0, _, _ => Process.diverge
  | n + 1, parts, literal => do
    let flushed := if literal.isEmpty then parts else parts ++ [.Literal (strToBytes literal)]
    match ← peekChar with
    | none => lexError "unterminated inner double quote in $\x7b\x7d".toList span
    | some '"' => do
      skipChar
      return flushed
    | some '$' => do
      skipChar
      match ← readDollar span false n with
      | some part => readBraceDquoteToggleParts span n (flushed ++ [part]) []
      | none => readBraceDquoteToggleParts span n flushed ['$']
    | some '\\' => do
      skipChar
      readBraceDquoteToggleParts span n parts (literal ++ (← advance).toList)
    | some '`' => do
      skipChar
      let part ← readBacktickPart nested n span
      readBraceDquoteToggleParts span n (flushed ++ [part]) []
    | some c => do
      skipChar
      readBraceDquoteToggleParts span n parts (literal ++ [c])

end

/-! ## Tokens -/

/-- `reserved_word` -/
def reservedWords : List (Text × Token) :=
  [("if".toList, .If), ("then".toList, .Then), ("else".toList, .Else), ("elif".toList, .Elif),
    ("fi".toList, .Fi), ("do".toList, .Do), ("done".toList, .Done), ("case".toList, .Case),
    ("esac".toList, .Esac), ("while".toList, .While), ("until".toList, .Until),
    ("for".toList, .For), ("in".toList, .In), ("\x7b".toList, .Lbrace), ("\x7d".toList, .Rbrace),
    ("!".toList, .Bang)]

/-- `single_literal_text` -/
def singleLiteralText : List WordPart → Option Text
  | [.Literal s] => asUtf8Str s
  | _ => none

/-- `try_split_assignment` -/
def trySplitAssignment : List WordPart → Option (Text × List WordPart)
  | .Literal first :: rest =>
    if first.contains 0x3D then
      match asUtf8Str (first.takeWhile (· != 0x3D)) with
      | some name =>
        let value := (first.dropWhile (· != 0x3D)).tail
        if isName name then
          some (name, (if value.isEmpty then [] else [.Literal value]) ++ rest)
        else none
      | none => none
    else none
  | _ => none

/-- The token for a word that has been read. -/
def tokenOfWord (recognize_reserved : Bool) (parts : List WordPart) (had_quoting : Bool) : Token :=
  let reserved := if recognize_reserved then
    (singleLiteralText parts).bind fun text => reservedWords.lookup text else none
  match reserved with
  | some token => token
  | none =>
    match trySplitAssignment parts with
    | some (name, value) => .Assignment name value
    | none => .Word parts had_quoting

/-- `read_word` -/
def readWord (n : Nat) (span : Span) : LexM (Token × Span) := do
  let (parts, had_quoting) ← readWordLoop nested span .Word false n { had_quoting := false }
  if parts.isEmpty then lexError "unexpected character".toList span
  else return (tokenOfWord (← get).recognize_reserved parts had_quoting, span)

/-- `next_token`, with no token pushed back. -/
def scanToken (n : Nat) : LexM (Token × Span) := do
  skipBlanks n
  let span ← currentSpan
  match ← peekChar with
  | none => return (.Eof, span)
  | some '\n' => do
    skipChar
    return (.Newline, span)
  | some _ => do
    match ← tryOperator with
    | some token => return (token, span)
    | none => readWord nested n span

/-- `next_token` -/
def nextToken (n : Nat) : LexM (Token × Span) := do
  match (← get).pushback with
  | some pushed => do
    modify fun s => { s with pushback := none }
    return pushed
  | none => scanToken nested n

end

end Ish.Epsh
