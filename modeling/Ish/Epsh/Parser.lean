import Ish.Epsh.Heredoc
import Ish.Epsh.Lists
import Ish.Lib.Numeral

/-!
# The parser

The model of `Parser` in `crates/epsh/src/parser.rs`, over the tokens of the lexer:
simple and compound commands, redirections, and the here-documents that are put into
them afterwards. Lists of commands are those of `Lists`, with the lexer for their source
of tokens. How a token is shown in a message and what is made of the text of a
here-document are parameters.
-/

namespace Ish.Epsh

open Ish.Lib

/-! ## Tokens -/

namespace Token

/-- `Token::is_redir` -/
def isRedir : Token → Bool
  | Less | Great | DLess | DGreat | LessAnd | GreatAnd | LessGreat | DLessDash | Clobber => true
  | _ => false

/-- Whether a token is `expected`, which carries no data. -/
def is (token expected : Token) : Bool := token.ctorIdx == expected.ctorIdx

/-- The descriptor of a redirection without a number. -/
def defaultFd : Token → Int
  | Less | DLess | DLessDash | LessAnd | LessGreat => 0
  | _ => 1

/-- What an operator with a file name redirects. -/
def redirKind : Token → Option (Epsh.Word → RedirKind)
  | Less => some .Input
  | Great => some .Output
  | DGreat => some .Append
  | Clobber => some .Clobber
  | LessGreat => some .ReadWrite
  | LessAnd => some .DupInput
  | GreatAnd => some .DupOutput
  | _ => none

/-- `reserved_word_text` -/
def reservedWordText : Token → Text
  | If => "if".toList
  | Then => "then".toList
  | Else => "else".toList
  | Elif => "elif".toList
  | Fi => "fi".toList
  | Do => "do".toList
  | Done => "done".toList
  | Case => "case".toList
  | Esac => "esac".toList
  | While => "while".toList
  | Until => "until".toList
  | For => "for".toList
  | In => "in".toList
  | Lbrace => "\x7b".toList
  | Rbrace => "\x7d".toList
  | Bang => "!".toList
  | _ => []

end Token

mutual

def partText : WordPart → Text
  | .Literal text | .SingleQuoted text => bytesToStr text
  | .DoubleQuoted inner => partsToText inner
  | .Param param => '$' :: param.name
  | .Tilde user => '~' :: bytesToStr user
  | _ => []

/-- `parts_to_text` -/
def partsToText : List WordPart → Text
  | [] => []
  | part :: parts => partText part ++ partsToText parts

end

def hasQuoting : WordPart → Bool
  | .SingleQuoted _ | .DoubleQuoted _ => true
  | .Literal text => (bytesToStr text).contains '\\'
  | _ => true

/-- `parts_have_quoting` -/
def partsHaveQuoting (parts : List WordPart) : Bool := parts.any hasQuoting

/-- Texts of words that are read as the descriptor of a redirection. -/
def isDescriptor (text : Text) : Bool :=
  !text.isEmpty && text.length ≤ 9 && text.all Char.isDigit

/-- `text.parse().unwrap_or(-1)` as an `i32` -/
def descriptorNumber (text : Text) : Int :=
  match Numeral.parseInt text with
  | some n => if -(2 ^ 31) ≤ n ∧ n < 2 ^ 31 then n else -1
  | none => -1

/-! ## Here-documents in commands -/

/-- Put bodies, one after the other, in the places that are left for them. -/
abbrev Patch := StateM (List HereDocBody)

def patchBody (kind : HereDocBody → RedirKind) (redir : Redir) : Patch Redir := do
  match ← get with
  | [] => return redir
  | body :: bodies => do
    set bodies
    return { redir with kind := kind body }

/-- An empty text is what the parser leaves for a body. -/
def patchRedir (redir : Redir) : Patch Redir :=
  match redir.kind with
  | .HereDoc (.Literal []) => patchBody .HereDoc redir
  | .HereDocStrip (.Literal []) => patchBody .HereDocStrip redir
  | _ => return redir

/-- `patch_heredoc_redirs` -/
def patchRedirs (redirs : List Redir) : Patch (List Redir) := redirs.mapM patchRedir

mutual

/-- `patch_heredocs_inner` -/
def patchCommand : Command → Patch Command
  | .Simple assigns args redirs span => return .Simple assigns args (← patchRedirs redirs) span
  | .Pipeline commands bang span => return .Pipeline (← patchCommands commands) bang span
  | .And left right => return .And (← patchCommand left) (← patchCommand right)
  | .Or left right => return .Or (← patchCommand left) (← patchCommand right)
  | .Sequence left right => return .Sequence (← patchCommand left) (← patchCommand right)
  | .Subshell body redirs => return .Subshell (← patchCommand body) (← patchRedirs redirs)
  | .BraceGroup body redirs => return .BraceGroup (← patchCommand body) (← patchRedirs redirs)
  | .FuncDef name body => return .FuncDef name (← patchCommand body)
  | .If cond then_part else_part =>
    return .If (← patchCommand cond) (← patchCommand then_part) (← patchOption else_part)
  | .While cond body => return .While (← patchCommand cond) (← patchCommand body)
  | .Until cond body => return .Until (← patchCommand cond) (← patchCommand body)
  | .For var words body => return .For var words (← patchCommand body)
  | .Case word arms => return .Case word (← patchArms arms)
  | .Not cmd => return .Not (← patchCommand cmd)
  | .Background cmd redirs => return .Background (← patchCommand cmd) (← patchRedirs redirs)

def patchCommands : List Command → Patch (List Command)
  | [] => return []
  | command :: commands => return (← patchCommand command) :: (← patchCommands commands)

def patchOption : Option Command → Patch (Option Command)
  | none => return none
  | some command => return some (← patchCommand command)

def patchArms : List CaseArm → Patch (List CaseArm)
  | [] => return []
  | ⟨patterns, body⟩ :: arms => return ⟨patterns, ← patchOption body⟩ :: (← patchArms arms)

end

/-- `patch_heredocs` -/
def patchHeredocs (command : Command) (bodies : List HereDocBody) : Command :=
  (patchCommand command bodies).1

/-! ## Tokens from the lexer -/

/-- `Parser` -/
structure ParserState where
  lexer : LexerState
  heredoc_bodies : List HereDocBody := []

/-- `Parser::new_bytes` -/
def ParserState.newBytes (source : List UInt8) : ParserState where
  lexer := .newBytes source

abbrev ParseM := Process Empty SyntaxError ParserState

/-- What the parser hands on: enclosed texts, the texts of here-documents, and tokens
to be shown. -/
structure ParserEnv extends Nested where
  parseWordPartsHeredoc : Nat → Text → Except SyntaxError (List WordPart)
  debug : Token → Text

/-- What the lexer does, in the parser. -/
def lexing {α : Type} (x : LexM α) : ParseM α := fun s =>
  (x s.lexer).map fun r => (r.1, { s with lexer := r.2 })

def parseError {α : Type} (msg : Text) (span : Span) : ParseM α := Process.fail ⟨msg, span⟩

def setRecognizeReserved (recognize_reserved : Bool) : ParseM Unit :=
  lexing (modify fun s => { s with recognize_reserved })

def addPendingHeredoc (heredoc : PendingHereDoc) : ParseM Unit :=
  lexing (modify fun s => { s with pending_heredocs := s.pending_heredocs ++ [heredoc] })

/-- `NestingGuard`, held while `x` runs. -/
def nestedParse {α : Type} (span : Span) (x : ParseM α) : ParseM α := fun s =>
  if MAX_NESTING_DEPTH ≤ s.lexer.nesting then
    some (.error ⟨"nesting deeper than 32 levels".toList, span⟩, s)
  else
    (x { s with lexer := { s.lexer with nesting := s.lexer.nesting + 1 } }).map fun r =>
      (r.1, { r.2 with lexer := { r.2.lexer with nesting := s.lexer.nesting } })

namespace Parser

section

variable (env : ParserEnv) (rounds : Nat)

def next : ParseM (Token × Span) := lexing (nextToken env.toNested rounds)

/-- A token in the place of the one that is pushed back. -/
def pushBack (token : Token × Span) : ParseM Unit :=
  lexing (modify fun s => { s with pushback := some token })

def peek : ParseM (Token × Span) := do
  let token ← next env rounds
  pushBack token
  return token

def skip : ParseM Unit := do
  let _ ← next env rounds

/-- The next token, when no word is reserved. -/
def nextUnreserved : ParseM (Token × Span) := do
  setRecognizeReserved false
  let token ← next env rounds
  setRecognizeReserved true
  return token

def expect (expected : Token) : ParseM Span := do
  let (token, span) ← next env rounds
  if token.is expected then return span
  else
    parseError ("expected ".toList ++ env.debug expected ++ ", got ".toList ++ env.debug token) span

/-- `make_heredoc_body` -/
def makeHeredocBody (raw : Text) (quoted : Bool) : ParseM HereDocBody :=
  if quoted then return .Literal (strToBytes raw)
  else do
    .Parsed <$> Process.ofExcept (env.parseWordPartsHeredoc (← get).lexer.nesting raw)

def readBodies : List PendingHereDoc → ParseM (List HereDocBody)
  | [] => return []
  | heredoc :: pending => do
    let raw ← lexing (readHeredocBody rounds heredoc)
    let body ← makeHeredocBody env raw heredoc.quoted
    return body :: (← readBodies pending)

/-- Read the here-documents that are pending. -/
def takeBodies : ParseM (List HereDocBody) := do
  let pending := (← get).lexer.pending_heredocs
  lexing (modify fun s => { s with pending_heredocs := [] })
  readBodies env rounds pending

/-- Read them at a newline, and keep them for the command. -/
def readPending : ParseM Unit := do
  let bodies ← takeBodies env rounds
  modify fun s => { s with heredoc_bodies := s.heredoc_bodies ++ bodies }

/-- The loop of `skip_newlines`. -/
def skipNewlinesLoop : Nat → ParseM Unit
  | 0 => Process.diverge
  | n + 1 => do
    let (token, span) ← next env rounds
    if token.is .Newline then
      readPending env rounds
      skipNewlinesLoop n
    else pushBack (token, span)

def skipNewlines : ParseM Unit := skipNewlinesLoop env rounds rounds

/-! ## Redirections -/

/-- What stands for a file name. -/
def redirTarget : ParseM Word := do
  let (token, span) ← nextUnreserved env rounds
  match token with
  | .Word parts _ => return { parts }
  | _ =>
    let text := token.reservedWordText
    if text.isEmpty then parseError ("expected filename, got ".toList ++ env.debug token) span
    else return { parts := [.Literal (strToBytes text)] }

/-- The delimiter of a here-document, which is read later. -/
def hereDelimiter (strip_tabs : Bool) : ParseM Unit := do
  let (token, span) ← nextUnreserved env rounds
  match token with
  | .Word parts had_quoting =>
    addPendingHeredoc
      { delimiter := strToBytes (partsToText parts), strip_tabs,
        quoted := had_quoting || partsHaveQuoting parts }
  | _ => parseError ("expected here-doc delimiter, got ".toList ++ env.debug token) span

/-- `parse_redir_after_op` -/
def parseRedirAfterOp (op : Token) (span : Span) : ParseM Redir := do
  let fd := op.defaultFd
  match op with
  | .DLess => do
    hereDelimiter env rounds false
    return { fd, kind := .HereDoc (.Literal []), span }
  | .DLessDash => do
    hereDelimiter env rounds true
    return { fd, kind := .HereDocStrip (.Literal []), span }
  | _ => do
    let word ← redirTarget env rounds
    match op.redirKind with
    | some kind => return { fd, kind := kind word, span }
    | none => Process.diverge -- `unreachable!()`

/-- The redirection that has a word for its descriptor, if one follows the word. -/
def descriptorRedir (text : Text) : ParseM (Option Redir) := do
  let (token, span) ← peek env rounds
  if token.isRedir then
    skip env rounds
    let redir ← parseRedirAfterOp env rounds token span
    return some { redir with fd := descriptorNumber text }
  else return none

/-- One round of `parse_redirections`. -/
def nextRedir : ParseM (Option Redir) := do
  let (token, span) ← peek env rounds
  match token with
  | .Word parts false =>
    if isDescriptor (partsToText parts) then
      skip env rounds
      match ← descriptorRedir env rounds (partsToText parts) with
      | some redir => return some redir
      | none => do
        pushBack (.Word parts false, span)
        return none
    else return none
  | _ =>
    if token.isRedir then
      skip env rounds
      some <$> parseRedirAfterOp env rounds token span
    else return none

def redirectionsLoop : Nat → List Redir → ParseM (List Redir)
  | 0, _ => Process.diverge
  | n + 1, redirs => do
    match ← nextRedir env rounds with
    | some redir => redirectionsLoop n (redirs ++ [redir])
    | none => return redirs

/-- `parse_redirections` -/
def parseRedirections : ParseM (List Redir) := redirectionsLoop env rounds rounds []

/-! ## Simple commands -/

/-- A simple command being read. -/
structure SimpleAcc where
  assigns : List Assignment := []
  args : List Word := []
  redirs : List Redir := []

/-- Whether a word would be the first of the command. -/
def SimpleAcc.isFirst (acc : SimpleAcc) : Bool := acc.args.isEmpty && acc.assigns.isEmpty

/-- What a round of a simple command has read. -/
inductive SimpleItem where
  | arg (word : Word)
  | redir (redir : Redir)
  | function (definition : Command)
  | stop

section

variable (command : ParseM Command)

/-- What a word is that redirects nothing: the name of a function, or an argument. -/
def wordItem (acc : SimpleAcc) (parts : List WordPart) : ParseM SimpleItem := do
  if acc.isFirst then
    let (token, _) ← peek env rounds
    if token.is .LParen then
      skip env rounds
      let _ ← expect env rounds .RParen
      skipNewlines env rounds
      let body ← command
      return .function (.FuncDef (partsToText parts) body)
    else return .arg { parts }
  else return .arg { parts }

/-- One round of the second loop of `parse_simple_command_or_func`. -/
def nextItem (acc : SimpleAcc) : ParseM SimpleItem := do
  let (token, span) ← peek env rounds
  match token with
  | .Word parts had_quoting => do
    skip env rounds
    if !had_quoting && isDescriptor (partsToText parts) then
      match ← descriptorRedir env rounds (partsToText parts) with
      | some redir => return .redir redir
      | none => wordItem env rounds command acc parts
    else wordItem env rounds command acc parts
  | .Assignment name value =>
    if acc.args.isEmpty then return .stop
    else do
      skip env rounds
      return .arg { parts := .Literal (strToBytes (name ++ ['='])) :: value }
  | _ =>
    if token.isRedir then
      skip env rounds
      .redir <$> parseRedirAfterOp env rounds token span
    else if acc.args.isEmpty || token.reservedWordText.isEmpty then return .stop
    else do
      skip env rounds
      return .arg { parts := [.Literal (strToBytes token.reservedWordText)] }

/-- The assignments in front of a command. -/
def assignsLoop : Nat → List Assignment → ParseM (List Assignment)
  | 0, _ => Process.diverge
  | n + 1, assigns => do
    let (token, _) ← peek env rounds
    match token with
    | .Assignment name value => do
      skip env rounds
      assignsLoop n (assigns ++ [{ name, value := { parts := value } }])
    | _ => return assigns

def simpleLoop (span : Span) : Nat → SimpleAcc → ParseM Command
  | 0, _ => Process.diverge
  | n + 1, acc => do
    match ← nextItem env rounds command acc with
    | .arg word => simpleLoop span n { acc with args := acc.args ++ [word] }
    | .redir redir => simpleLoop span n { acc with redirs := acc.redirs ++ [redir] }
    | .function definition => return definition
    | .stop =>
      if acc.isFirst && acc.redirs.isEmpty then
        let (token, span) ← next env rounds
        parseError ("unexpected token: ".toList ++ env.debug token) span
      else return .Simple acc.assigns acc.args acc.redirs span

/-- `parse_simple_command_or_func` -/
def parseSimpleCommandOrFunc : ParseM Command := do
  let span ← lexing currentSpan
  let assigns ← assignsLoop env rounds rounds []
  simpleLoop env rounds command span rounds { assigns }

end

/-! ## Compound commands -/

section

variable (compound : ParseM Command)

/-- A compound list among newlines. -/
def body : ParseM Command := do
  skipNewlines env rounds
  let command ← compound
  skipNewlines env rounds
  return command

/-- A command whose redirections are those of a group around it. -/
def redirected (command : Command) : ParseM Command := do
  let redirs ← parseRedirections env rounds
  return if redirs.isEmpty then command else .BraceGroup command redirs

/-- `parse_subshell` -/
def parseSubshell : ParseM Command := do
  let _ ← expect env rounds .LParen
  let command ← body env rounds compound
  let _ ← expect env rounds .RParen
  return .Subshell command (← parseRedirections env rounds)

/-- `parse_brace_group` -/
def parseBraceGroup : ParseM Command := do
  let _ ← expect env rounds .Lbrace
  let command ← body env rounds compound
  let _ ← expect env rounds .Rbrace
  return .BraceGroup command (← parseRedirections env rounds)

/-- The end of an `if`, with the conditions after the first. -/
def elseLoop : Nat → ParseM (Option Command)
  | 0 => Process.diverge
  | n + 1 => do
    let (token, _) ← peek env rounds
    match token with
    | .Elif => do
      skip env rounds
      let cond ← body env rounds compound
      let _ ← expect env rounds .Then
      let then_part ← body env rounds compound
      return some (.If cond then_part (← elseLoop n))
    | .Else => do
      skip env rounds
      let command ← body env rounds compound
      let _ ← expect env rounds .Fi
      return some command
    | .Fi => do
      skip env rounds
      return none
    | _ => do
      let (token, span) ← next env rounds
      parseError ("expected 'elif', 'else', or 'fi', got ".toList ++ env.debug token) span

/-- `parse_if`, and `parse_elif` in the loop -/
def parseIf : ParseM Command := do
  let _ ← expect env rounds .If
  let cond ← body env rounds compound
  let _ ← expect env rounds .Then
  let then_part ← body env rounds compound
  let else_part ← elseLoop env rounds compound rounds
  redirected env rounds (.If cond then_part else_part)

/-- `do`, a list and `done` -/
def doGroup : ParseM Command := do
  let _ ← expect env rounds .Do
  let command ← body env rounds compound
  let _ ← expect env rounds .Done
  return command

/-- `parse_while` -/
def parseWhile : ParseM Command := do
  let _ ← expect env rounds .While
  let cond ← body env rounds compound
  let command ← doGroup env rounds compound
  redirected env rounds (.While cond command)

/-- `parse_until` -/
def parseUntil : ParseM Command := do
  let _ ← expect env rounds .Until
  let cond ← body env rounds compound
  let command ← doGroup env rounds compound
  redirected env rounds (.Until cond command)

/-- One round of the words of a `for`. -/
def nextForWord : ParseM (Option Word) := do
  let (token, _) ← peek env rounds
  match token with
  | .Word parts _ => do
    skip env rounds
    return some { parts }
  | .Semi | .Newline => do
    skip env rounds
    return none
  | _ => return none

def forWordsLoop : Nat → List Word → ParseM (List Word)
  | 0, _ => Process.diverge
  | n + 1, words => do
    match ← nextForWord env rounds with
    | some word => forWordsLoop n (words ++ [word])
    | none => return words

/-- The words of a `for`, if it has an `in`. -/
def forWords : ParseM (Option (List Word)) := do
  let (token, _) ← peek env rounds
  match token with
  | .In => do
    skip env rounds
    some <$> forWordsLoop env rounds rounds []
  | .Semi => do
    skip env rounds
    return none
  | _ => return none

def forVariable : ParseM Text := do
  let (token, span) ← nextUnreserved env rounds
  match token with
  | .Word parts _ => return partsToText parts
  | _ =>
    parseError ("expected variable name after 'for', got ".toList ++ env.debug token) span

/-- `parse_for` -/
def parseFor : ParseM Command := do
  let _ ← expect env rounds .For
  let var ← forVariable env rounds
  skipNewlines env rounds
  let words ← forWords env rounds
  skipNewlines env rounds
  let command ← doGroup env rounds compound
  redirected env rounds (.For var words command)

def caseSubject : ParseM Word := do
  let (token, span) ← nextUnreserved env rounds
  match token with
  | .Word parts _ => return { parts }
  | _ => parseError ("expected word after 'case', got ".toList ++ env.debug token) span

def casePattern : ParseM Word := do
  let (token, span) ← nextUnreserved env rounds
  match token with
  | .Word parts _ => return { parts }
  | _ =>
    let text := token.reservedWordText
    if text.isEmpty then
      parseError ("expected pattern in case arm, got ".toList ++ env.debug token) span
    else return { parts := [.Literal (strToBytes text)] }

def casePatterns : Nat → List Word → ParseM (List Word)
  | 0, _ => Process.diverge
  | n + 1, patterns => do
    let pattern ← casePattern env rounds
    let (token, _) ← peek env rounds
    if token.is .Pipe then
      skip env rounds
      casePatterns n (patterns ++ [pattern])
    else return patterns ++ [pattern]

/-- What an arm runs; its end is left behind. -/
def caseBody : ParseM (Option Command) := do
  let (token, _) ← peek env rounds
  if token.is .SemiSemi || token.is .Esac then return none else some <$> compound

/-- `parse_case_arm` -/
def parseCaseArm : ParseM CaseArm := do
  let (token, _) ← peek env rounds
  if token.is .LParen then
    skip env rounds
  let patterns ← casePatterns env rounds rounds []
  let _ ← expect env rounds .RParen
  skipNewlines env rounds
  let body ← caseBody env rounds compound
  let (token, _) ← peek env rounds
  if token.is .SemiSemi then
    skip env rounds
    skipNewlines env rounds
  return { patterns, body }

def caseArms : Nat → List CaseArm → ParseM (List CaseArm)
  | 0, _ => Process.diverge
  | n + 1, arms => do
    let (token, _) ← peek env rounds
    if token.is .Esac then
      skip env rounds
      return arms
    else
      let arm ← parseCaseArm env rounds compound
      skipNewlines env rounds
      caseArms n (arms ++ [arm])

/-- `parse_case` -/
def parseCase : ParseM Command := do
  let _ ← expect env rounds .Case
  let word ← caseSubject env rounds
  skipNewlines env rounds
  let _ ← expect env rounds .In
  skipNewlines env rounds
  let arms ← caseArms env rounds compound rounds []
  redirected env rounds (.Case word arms)

/-- `parse_command`, with the parsers of what it encloses -/
def parseCommandOf (command : ParseM Command) : ParseM Command := do
  let (token, _) ← peek env rounds
  match token with
  | .LParen => parseSubshell env rounds compound
  | .Lbrace => parseBraceGroup env rounds compound
  | .If => parseIf env rounds compound
  | .While => parseWhile env rounds compound
  | .Until => parseUntil env rounds compound
  | .For => parseFor env rounds compound
  | .Case => parseCase env rounds compound
  | _ => parseSimpleCommandOrFunc env rounds command

end

/-! ## Lists and programs -/

/-- The state of the parser as that of a reader of lists. -/
def reader (s : ParserState) : Reader ParserState where
  source := { s with lexer := { s.lexer with pushback := none } }
  pushback := s.lexer.pushback

def ofReader (r : Reader ParserState) : ParserState :=
  { r.source with lexer := { r.source.lexer with pushback := r.pushback } }

/-- How a step of the parser ends, for lists; a run that needs more fuel has no error. -/
def listStep {α : Type} (x : ParseM α) (s : ParserState) :
    Except (Option SyntaxError) (α × ParserState) :=
  match x s with
  | some (.ok a, t) => .ok (a, t)
  | some (.error e, _) => .error (some e)
  | none => .error none

/-- The lexer of the parser. -/
def listLexer : Lexer ParserState (Option SyntaxError) where
  next_token := listStep (lexing (scanToken env.toNested rounds))
  read_pending s := (listStep (readPending env rounds) s).map (·.2)

def toList {α : Type} (x : ParseM α) : Parse ParserState (Option SyntaxError) α := fun r =>
  some ((listStep x (ofReader r)).map fun result => (result.1, reader result.2))

def ofList {α : Type} (x : Parse ParserState (Option SyntaxError) α) : ParseM α := fun s =>
  match x (reader s) with
  | some (.ok (a, r)) => some (.ok a, ofReader r)
  | some (.error (some e)) => some (.error e, s)
  | some (.error none) | none => none

def commandList (command : ParseM Command) (allow_newline_sep : Bool) : ParseM Command :=
  ofList (parseCommandList (listLexer env rounds) (toList command) rounds allow_newline_sep)

/-- `parse_compound_list` -/
def parseCompoundList (command : ParseM Command) : ParseM Command := do
  let (_, span) ← peek env rounds
  nestedParse span (commandList env rounds command true)

/-- `parse_command` -/
def parseCommand : Nat → ParseM Command
  | 0 => Process.diverge
  | n + 1 =>
    parseCommandOf env rounds (parseCompoundList env rounds (parseCommand n)) (parseCommand n)

/-- `parse_complete_command` -/
def parseCompleteCommand : ParseM Command :=
  commandList env rounds (parseCommand env rounds rounds) false

/-- `read_pending_heredocs`: the bodies that were read last are put in first. -/
def readPendingHeredocs (command : Command) : ParseM Command := do
  let last ← takeBodies env rounds
  let bodies := (← get).heredoc_bodies
  modify fun s => { s with heredoc_bodies := [] }
  return patchHeredocs (patchHeredocs command last) bodies

def programLoop : Nat → List Command → ParseM (List Command)
  | 0, _ => Process.diverge
  | n + 1, commands => do
    let (token, _) ← peek env rounds
    if token.is .Eof then return commands
    else
      let command ← parseCompleteCommand env rounds
      let command ← readPendingHeredocs env rounds command
      skipNewlines env rounds
      programLoop n (commands ++ [command])

/-- `parse_program` -/
def parseProgram : ParseM (List Command) := do
  skipNewlines env rounds
  programLoop env rounds rounds []

/-- `Parser::parse` -/
def parse : ParseM Program := do
  return { commands := ← parseProgram env rounds }

end

end Parser

end Ish.Epsh
