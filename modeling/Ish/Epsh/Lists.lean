import Ish.Epsh.Ast
import Mathlib.Data.List.Induction

/-!
# Lists — how the parser nests commands and their separators

The model of `parse_command_list`, `parse_and_or` and `parse_pipeline` in
`crates/epsh/src/parser.rs`, over any lexer and any parser of single commands.
The loops run for a number of rounds; `none` is a run that needs more.
-/

namespace Ish.Epsh

open List

inductive Token where
  | Word (parts : List WordPart) (had_quoting : Bool)
  | Assignment (name : Text) (value : List WordPart)
  | Newline | Semi | Amp | Pipe | And | Or | SemiSemi
  | Less | Great | DLess | DGreat | LessAnd | GreatAnd | LessGreat | DLessDash | Clobber
  | LParen | RParen
  | If | Then | Else | Elif | Fi | Do | Done | Case | Esac | While | Until | For | In
  | Lbrace | Rbrace | Bang
  | Eof

/-- `is_command_start` -/
def Token.isCommandStart : Token → Bool
  | Word .. | Assignment .. | If | While | Until | For | Case | LParen | Lbrace | Bang => true
  | _ => false

/-- A lexer with its source, without the token that was pushed back, and the
reading of the here-documents that are pending at a newline. -/
structure Lexer (σ ε : Type) where
  next_token : σ → Except ε ((Token × Span) × σ)
  read_pending : σ → Except ε σ

/-- The source, and the token that was pushed back. -/
structure Reader (σ : Type) where
  source : σ
  pushback : Option (Token × Span)

/-- A run of the parser, which out of rounds has no result. -/
abbrev Parse (σ ε α : Type) := Reader σ → Option (Except ε (α × Reader σ))

namespace Parse

variable {σ ε α β : Type}

def pure (a : α) : Parse σ ε α := fun reader => some (.ok (a, reader))

def bind (x : Parse σ ε α) (f : α → Parse σ ε β) : Parse σ ε β := fun reader =>
  match x reader with
  | none => none
  | some (.error error) => some (.error error)
  | some (.ok (a, after)) => f a after

instance : Monad (Parse σ ε) where
  pure := pure
  bind := bind

/-- A run goes on from where the one before it ended. -/
theorem bind_ok {x : Parse σ ε α} {f : α → Parse σ ε β} {reader after a}
    (h : x reader = some (.ok (a, after))) : (x >>= f) reader = f a after := by
  show bind x f reader = _
  rw [bind, h]

end Parse

section Parser

variable {σ ε : Type} (lexer : Lexer σ ε) (parse_command : Parse σ ε Command)

def next : Parse σ ε (Token × Span) := fun reader =>
  match reader.pushback with
  | some pushed => some (.ok (pushed, { reader with pushback := none }))
  | none =>
    match lexer.next_token reader.source with
    | .error error => some (.error error)
    | .ok (token, source) => some (.ok (token, { reader with source }))

def pushBack (token : Token × Span) : Parse σ ε Unit := fun reader =>
  some (.ok ((), { reader with pushback := some token }))

def peek : Parse σ ε (Token × Span) := do
  let token ← next lexer
  pushBack token
  return token

def readPending : Parse σ ε Unit := fun reader =>
  match lexer.read_pending reader.source with
  | .error error => some (.error error)
  | .ok source => some (.ok ((), { reader with source }))

def skipNewlines : Nat → Parse σ ε Unit
  | 0 => fun _ => none
  | n + 1 => do
    let (token, span) ← next lexer
    match token with
    | .Newline => do
      readPending lexer
      skipNewlines n
    | _ => pushBack (token, span)

/-- The loop of `parse_pipeline`, over the commands read so far. -/
def pipelineLoop (rounds : Nat) : Nat → List Command → Parse σ ε (List Command)
  | 0, _ => fun _ => none
  | n + 1, commands => do
    let (token, _) ← peek lexer
    match token with
    | .Pipe => do
      let _ ← next lexer
      skipNewlines lexer rounds
      let command ← parse_command
      pipelineLoop rounds n (commands ++ [command])
    | _ => return commands

def parsePipeline (rounds : Nat) : Parse σ ε Command := do
  let (token, span) ← peek lexer
  let bang := match token with
    | .Bang => true
    | _ => false
  if bang then
    let _ ← next lexer
  let first ← parse_command
  let commands ← pipelineLoop lexer parse_command rounds rounds [first]
  match commands, bang with
  | [command], false => return command
  | _, _ => return .Pipeline commands bang span

/-- The loop of `parse_and_or`. -/
def andOrLoop (rounds : Nat) : Nat → Command → Parse σ ε Command
  | 0, _ => fun _ => none
  | n + 1, left => do
    let (token, _) ← peek lexer
    match token with
    | .And => do
      let _ ← next lexer
      skipNewlines lexer rounds
      let right ← parsePipeline lexer parse_command rounds
      andOrLoop rounds n (.And left right)
    | .Or => do
      let _ ← next lexer
      skipNewlines lexer rounds
      let right ← parsePipeline lexer parse_command rounds
      andOrLoop rounds n (.Or left right)
    | _ => return left

def parseAndOr (rounds : Nat) : Parse σ ε Command := do
  let left ← parsePipeline lexer parse_command rounds
  andOrLoop lexer parse_command rounds rounds left

/-- What stands behind an and-or list. -/
inductive Separator where
  | semi
  | newline
  | amp
deriving DecidableEq

/-- The separator that a token is, where newlines are allowed or not. -/
def Token.separator (allow_newline_sep : Bool) : Token → Option Separator
  | Semi => some .semi
  | Newline => if allow_newline_sep then some .newline else none
  | Amp => some .amp
  | _ => none

/-- A separator is taken, and what newlines it lets follow. -/
def takeSeparator (rounds : Nat) (allow_newline_sep : Bool) : Separator → Parse σ ε Unit
  | .semi => do
    let _ ← next lexer
    skipNewlines lexer rounds
  | .newline => do
    let _ ← next lexer
    readPending lexer
    skipNewlines lexer rounds
  | .amp => do
    let _ ← next lexer
    if allow_newline_sep then skipNewlines lexer rounds

/-- The command so far, once the separator behind it is known. -/
def Separator.close (command : Command) : Separator → Command
  | amp => .Background command []
  | _ => command

/-- The loop of `parse_command_list`. -/
def listLoop (rounds : Nat) (allow_newline_sep : Bool) : Nat → Command → Parse σ ε Command
  | 0, _ => fun _ => none
  | n + 1, command => do
    let (token, _) ← peek lexer
    match token.separator allow_newline_sep with
    | none => return command
    | some separator => do
      takeSeparator lexer rounds allow_newline_sep separator
      let command := separator.close command
      let (next_token, _) ← peek lexer
      if next_token.isCommandStart then do
        let right ← parseAndOr lexer parse_command rounds
        listLoop rounds allow_newline_sep n (.Sequence command right)
      else listLoop rounds allow_newline_sep n command

def parseCommandList (rounds : Nat) (allow_newline_sep : Bool) : Parse σ ε Command := do
  let command ← parseAndOr lexer parse_command rounds
  listLoop lexer parse_command rounds allow_newline_sep rounds command

end Parser

/-! ## What a list is made of -/

section Lists

variable {σ ε : Type} (lexer : Lexer σ ε) (parse_command : Parse σ ε Command) (rounds : Nat)
  (allow_newline_sep : Bool)

/-- What stands behind a command: separators, each with the and-or list that
follows it, if one does. -/
inductive Follows : Reader σ → List (Separator × Option Command) → Reader σ → Prop where
  | stop {reader after token} : peek lexer reader = some (.ok (token, after)) →
      token.1.separator allow_newline_sep = none → Follows reader [] after
  | command {reader peeked taken started read after token start separator right items} :
      peek lexer reader = some (.ok (token, peeked)) →
      token.1.separator allow_newline_sep = some separator →
      takeSeparator lexer rounds allow_newline_sep separator peeked = some (.ok ((), taken)) →
      peek lexer taken = some (.ok (start, started)) → start.1.isCommandStart = true →
      parseAndOr lexer parse_command rounds started = some (.ok (right, read)) →
      Follows read items after → Follows reader ((separator, some right) :: items) after
  | bare {reader peeked taken started after token start separator items} :
      peek lexer reader = some (.ok (token, peeked)) →
      token.1.separator allow_newline_sep = some separator →
      takeSeparator lexer rounds allow_newline_sep separator peeked = some (.ok ((), taken)) →
      peek lexer taken = some (.ok (start, started)) → start.1.isCommandStart = false →
      Follows started items after → Follows reader ((separator, none) :: items) after

/-- How the parser nests a command and what stands behind it. -/
def nest : Command → List (Separator × Option Command) → Command
  | command, [] => command
  | command, (separator, some right) :: items =>
    nest (.Sequence (separator.close command) right) items
  | command, (separator, none) :: items => nest (separator.close command) items

variable {lexer parse_command rounds allow_newline_sep}

/-- **The loop** nests what stands behind the command. -/
theorem listLoop_eq {reader after : Reader σ} {items}
    (h : Follows lexer parse_command rounds allow_newline_sep reader items after) {n}
    (hn : items.length < n) (command : Command) :
    listLoop lexer parse_command rounds allow_newline_sep n command reader =
      some (.ok (nest command items, after)) := by
  induction h generalizing n command with
  | stop hpeek hnone =>
    obtain ⟨n, rfl⟩ := Nat.exists_eq_succ_of_ne_zero (Nat.ne_of_gt hn)
    rw [listLoop, Parse.bind_ok hpeek]
    simp only [hnone]
    rfl
  | command hpeek hseparator htake hstart hcommand hright _ ih =>
    obtain ⟨n, rfl⟩ := Nat.exists_eq_succ_of_ne_zero (Nat.ne_of_gt (Nat.zero_lt_of_lt hn))
    rw [listLoop, Parse.bind_ok hpeek]
    simp only [hseparator]
    rw [Parse.bind_ok htake, Parse.bind_ok hstart]
    simp only [hcommand, if_true]
    rw [Parse.bind_ok hright, ih (Nat.lt_of_succ_lt_succ hn)]
    rfl
  | bare hpeek hseparator htake hstart hcommand _ ih =>
    obtain ⟨n, rfl⟩ := Nat.exists_eq_succ_of_ne_zero (Nat.ne_of_gt (Nat.zero_lt_of_lt hn))
    rw [listLoop, Parse.bind_ok hpeek]
    simp only [hseparator]
    rw [Parse.bind_ok htake, Parse.bind_ok hstart]
    simp only [hcommand, Bool.false_eq_true, if_false]
    rw [ih (Nat.lt_of_succ_lt_succ hn)]
    rfl

end Lists

/-! ## The scope of `&` -/

/-- What stands behind the first and-or list: the others, each behind its
separator, and the separator at the end. -/
def behind (items : List (Separator × Command)) (closing : Option Separator) :
    List (Separator × Option Command) :=
  items.map (fun item => (item.1, some item.2)) ++ closing.toList.map (·, none)

def closeWith (closing : Option Separator) (command : Command) : Command :=
  match closing with
  | none => command
  | some separator => separator.close command

def join : Option Command → Command → Command
  | none, command => command
  | some done, command => .Sequence done command

/-- The same list with each `&` around the and-or list before it only. -/
def intended : Option Command → Command → List (Separator × Command) → Option Separator → Command
  | done, current, [], closing => join done (closeWith closing current)
  | done, current, (separator, right) :: items, closing =>
    intended (some (join done (separator.close current))) right items closing

theorem nest_append (command : Command) (items more : List (Separator × Option Command)) :
    nest command (items ++ more) = nest (nest command items) more := by
  induction items generalizing command with
  | nil => rfl
  | cons item items ih =>
    obtain ⟨separator, _ | right⟩ := item
    · exact ih _
    · exact ih _

theorem nest_closing (command : Command) (items : List (Separator × Command))
    (closing : Option Separator) :
    nest command (behind items closing) = closeWith closing (nest command (behind items none)) := by
  rw [behind, nest_append, behind]
  simp only [Option.toList_none, map_nil, append_nil]
  cases closing <;> rfl

theorem nest_snoc (command : Command) (items : List (Separator × Command))
    (separator : Separator) (right : Command) :
    nest command (behind (items ++ [(separator, right)]) none) =
      .Sequence (nest command (behind items (some separator))) right := by
  rw [nest_closing _ items (some separator)]
  simp only [behind, Option.toList_none, map_nil, append_nil, map_append,
    map_cons, nest_append]
  rfl

theorem intended_snoc (done : Option Command) (current : Command)
    (items : List (Separator × Command)) (separator : Separator) (right : Command)
    (closing : Option Separator) :
    intended done current (items ++ [(separator, right)]) closing =
      .Sequence (intended done current items (some separator)) (closeWith closing right) := by
  induction items generalizing done current with
  | nil => rfl
  | cons item items ih => exact ih _ _

/-- An `&` at the end takes in all that the parser has read. -/
theorem close_eq_iff (closing : Option Separator) (whole left right : Command) :
    closeWith closing (.Sequence whole right) = .Sequence left (closeWith closing right) ↔
      closing ≠ some .amp ∧ whole = left := by
  rcases closing with _ | ⟨_ | _ | _⟩ <;> simp [closeWith, Separator.close]

/-- **Behind a first command** no `&` keeps its scope. -/
theorem nest_eq_intended_iff (done current : Command) (items : List (Separator × Command))
    (closing : Option Separator) :
    nest (.Sequence done current) (behind items closing) =
        intended (some done) current items closing ↔
      ∀ separator ∈ items.map (·.1) ++ closing.toList, separator ≠ .amp := by
  induction items using List.reverseRecOn generalizing closing with
  | nil =>
    rw [nest_closing]
    show closeWith closing (.Sequence done current) = .Sequence done (closeWith closing current) ↔ _
    rw [close_eq_iff]
    cases closing <;> simp
  | append_singleton items item ih =>
    obtain ⟨separator, right⟩ := item
    rw [nest_closing, nest_snoc, intended_snoc, close_eq_iff, ih]
    simp only [map_append, map_cons, map_nil, mem_append,
      Option.mem_toList, mem_singleton, Option.some.injEq]
    constructor
    · rintro ⟨hclosing, hitems⟩ other ((hmem | hsame) | hlast)
      · exact hitems other (Or.inl hmem)
      · exact hitems other (Or.inr hsame.symm)
      · rintro rfl
        exact hclosing hlast
    · intro h
      refine ⟨fun hclosing => h .amp (Or.inr hclosing) rfl, ?_⟩
      rintro other (hmem | hsame)
      · exact h other (Or.inl (Or.inl hmem))
      · exact h other (Or.inl (Or.inr hsame.symm))

/-- Only the first and-or list is followed by `&`. -/
def OnlyFirst (items : List (Separator × Command)) (closing : Option Separator) : Prop :=
  items = [] ∨ ∀ separator ∈ (items.map (·.1)).tail ++ closing.toList, separator ≠ .amp

/-- **The parsed list** has each `&` around the and-or list before it only, when
that is the first of the list, and not otherwise. -/
theorem parseCommandList_intended_iff {σ ε : Type} {lexer : Lexer σ ε}
    {parse_command : Parse σ ε Command} {rounds : Nat} {allow_newline_sep : Bool}
    {reader middle after : Reader σ} {first : Command} {items : List (Separator × Command)}
    {closing : Option Separator}
    (hfirst : parseAndOr lexer parse_command rounds reader = some (.ok (first, middle)))
    (hbehind : Follows lexer parse_command rounds allow_newline_sep middle
      (behind items closing) after) (hrounds : items.length + 1 < rounds) :
    ∃ command, parseCommandList lexer parse_command rounds allow_newline_sep reader =
        some (.ok (command, after)) ∧
      (command = intended none first items closing ↔ OnlyFirst items closing) := by
  refine ⟨nest first (behind items closing), ?_, ?_⟩
  · rw [parseCommandList, Parse.bind_ok hfirst]
    apply listLoop_eq hbehind
    rw [behind, length_append, length_map, length_map]
    have hclosing : closing.toList.length ≤ 1 := by cases closing <;> simp
    omega
  · cases items with
    | nil =>
      rw [nest_closing]
      exact ⟨fun _ => Or.inl rfl, fun _ => rfl⟩
    | cons item items =>
      obtain ⟨separator, right⟩ := item
      show nest (.Sequence (separator.close first) right) (behind items closing) =
        intended (some (separator.close first)) right items closing ↔ _
      rw [nest_eq_intended_iff]
      simp [OnlyFirst]

/-! ## Lists of words -/

/-- A list of tokens as a source. -/
def tokenLexer : Lexer (List Token) Unit where
  next_token
    | [] => .ok ((.Eof, {}), [])
    | token :: tokens => .ok ((token, {}), tokens)
  read_pending := .ok

/-- A word is a command. -/
def wordCommand : Parse (List Token) Unit Command := do
  let (token, span) ← next tokenLexer
  match token with
  | .Word parts _ => return .Simple [] [{ parts }] [] span
  | _ => fun _ => some (.error ())

def wordToken (text : String) : Token := .Word [.Literal (strToBytes text.toList)] false

def oneWord (text : String) : Command :=
  .Simple [] [{ parts := [.Literal (strToBytes text.toList)] }] [] {}

/-- In `a; b &` the parser puts `a` in the background as well. -/
theorem amp_takes_whole_list :
    ∃ parsed after, parseCommandList tokenLexer wordCommand 4 false
        { source := [wordToken "a", .Semi, wordToken "b", .Amp], pushback := none } =
          some (.ok (parsed, after)) ∧
      parsed = .Background (.Sequence (oneWord "a") (oneWord "b")) [] ∧
      parsed ≠ intended none (oneWord "a") [(.semi, oneWord "b")] (some .amp) := by
  refine ⟨_, _, rfl, rfl, ?_⟩
  simp [intended, join, closeWith, Separator.close]

/-- In `a & b` the `&` stands behind the first. -/
theorem amp_behind_first : ∃ parsed after, parseCommandList tokenLexer wordCommand 4 false
      { source := [wordToken "a", .Amp, wordToken "b"], pushback := none } = some (.ok (parsed, after)) ∧
    (parsed = intended none (oneWord "a") [(.amp, oneWord "b")] none ↔
      OnlyFirst [(.amp, oneWord "b")] none) := by
  have hfirst : parseAndOr tokenLexer wordCommand 4
      { source := [wordToken "a", .Amp, wordToken "b"], pushback := none } =
        some (.ok (oneWord "a", { source := [wordToken "b"], pushback := some (.Amp, {}) })) := rfl
  have hbehind : Follows tokenLexer wordCommand 4 false
      { source := [wordToken "b"], pushback := some (.Amp, {}) }
      (behind [(.amp, oneWord "b")] none) { source := [], pushback := some (.Eof, {}) } :=
    .command rfl rfl rfl rfl rfl rfl (.stop rfl rfl)
  obtain ⟨parsed, hparsed, hiff⟩ := parseCommandList_intended_iff hfirst hbehind (by decide)
  exact ⟨parsed, _, hparsed, hiff⟩

end Ish.Epsh
