import Ish.Epsh.Var

/-!
# Syntax trees

The model of `crates/epsh/src/ast.rs`. Source positions are kept where the
evaluator reads them, which is in the errors it returns.
-/

namespace Ish.Epsh

/-- A source position. -/
structure Span where
  offset : Nat := 0
  line : Nat := 0
  col : Nat := 0
deriving DecidableEq

mutual

/-- One lexical word, made of concatenated parts. -/
structure Word where
  parts : List WordPart

inductive WordPart where
  | Literal (text : ShellBytes)
  | SingleQuoted (text : ShellBytes)
  | DoubleQuoted (inner : List WordPart)
  | Param (param : ParamExpr)
  | CmdSubst (cmd : Command)
  | Backtick (cmd : Command)
  | Arith (inner : List WordPart)
  | Tilde (user : ShellBytes)

structure ParamExpr where
  name : Text
  op : ParamOp
  span : Span

inductive ParamOp where
  | Normal
  | Length
  | Default (colon : Bool) (word : List WordPart)
  | Assign (colon : Bool) (word : List WordPart)
  | Error (colon : Bool) (word : List WordPart)
  | Alternative (colon : Bool) (word : List WordPart)
  | TrimSuffixSmall (pattern : List WordPart)
  | TrimSuffixLarge (pattern : List WordPart)
  | TrimPrefixSmall (pattern : List WordPart)
  | TrimPrefixLarge (pattern : List WordPart)
  | BadSubst

structure Assignment where
  name : Text
  value : Word

inductive HereDocBody where
  | Literal (text : ShellBytes)
  | Parsed (parts : List WordPart)

/-- A redirection; `HereDoc` and `HereDocStrip` differ only to the parser. -/
inductive RedirKind where
  | Input (word : Word)
  | Output (word : Word)
  | Clobber (word : Word)
  | Append (word : Word)
  | ReadWrite (word : Word)
  | DupInput (word : Word)
  | DupOutput (word : Word)
  | HereDoc (body : HereDocBody)
  | HereDocStrip (body : HereDocBody)

structure Redir where
  fd : Int
  kind : RedirKind
  span : Span

structure CaseArm where
  patterns : List Word
  body : Option Command

inductive Command where
  | Simple (assigns : List Assignment) (args : List Word) (redirs : List Redir) (span : Span)
  | Pipeline (commands : List Command) (bang : Bool) (span : Span)
  | And (left right : Command)
  | Or (left right : Command)
  | Sequence (left right : Command)
  | Subshell (body : Command) (redirs : List Redir)
  | BraceGroup (body : Command) (redirs : List Redir)
  | If (cond then_part : Command) (else_part : Option Command)
  | While (cond body : Command)
  | Until (cond body : Command)
  | For (var : Text) (words : Option (List Word)) (body : Command)
  | Case (word : Word) (arms : List CaseArm)
  | FuncDef (name : Text) (body : Command)
  | Not (cmd : Command)
  | Background (cmd : Command) (redirs : List Redir)

end

/-- A complete program. -/
structure Program where
  commands : List Command

namespace Command

/-- `matches!(cmd, Command::Pipeline { bang: true, .. })` -/
def isBang : Command → Bool
  | Pipeline _ bang _ => bang
  | _ => false

/-- The commands whose status `set -e` looks at. -/
def isLeaf : Command → Bool
  | Simple .. | Pipeline .. | Subshell .. | Background .. => true
  | _ => false

def isSimple : Command → Bool
  | Simple .. => true
  | _ => false

end Command

end Ish.Epsh
