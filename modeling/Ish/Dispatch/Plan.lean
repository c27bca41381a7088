import Ish.Dispatch.Builtin
import Mathlib.Logic.Relation

/-!
# Plan — the gate for input lines

The model of `plan` and its checks in `src/dispatch.rs`. A line is planned for
epsh when nothing reachable in it is refused: the checks go through every place
that can hold a command. The parser is a parameter.
-/

namespace Ish.Dispatch

open Ish.Epsh (Text ShellBytes CommandRule Command Word WordPart Redir RedirKind HereDocBody
  Assignment ParamOp Program isBuiltin commandAction bytesToStr strToBytes)

inductive Rejection where
  | Syntax (message : Text)
  | Background
  | Compound (kind : String)
  | FunctionDefinition
  | UnsupportedBuiltin (name : Text)
  | Arguments (diagnostic : Text)
  | ParameterOperator
  | ShellBuiltinOutsideLine (name : Text)
deriving DecidableEq

inductive Plan where
  | Epsh (program : Program)
  | Builtin (name : Text) (args : List Word)

/-! ## Names -/

mutual

/-- `push`, for one part. -/
def pushPart : WordPart → Option Text
  | .Literal bytes | .SingleQuoted bytes => some (bytesToStr bytes)
  | .DoubleQuoted inner => pushParts inner
  | _ => none

def pushParts : List WordPart → Option Text
  | [] => some []
  | part :: parts => do
    let text ← pushPart part
    let rest ← pushParts parts
    return text ++ rest

end

/-- `static_text` -/
def staticText (word : Word) : Option Text := pushParts word.parts

/-- `words.iter().map_while(static_text)` -/
def staticPrefix : List Word → List Text
  | [] => []
  | word :: words =>
    match staticText word with
    | some text => text :: staticPrefix words
    | none => []

/-- `refused_command_name` -/
def refusedCommandName (name : Text) : Option Rejection :=
  match (lookup name).filter (·.exec = .InShell) with
  | some spec => some (.ShellBuiltinOutsideLine spec.name)
  | none =>
    if isBuiltin name && !epshBuiltinNames.contains name then some (.UnsupportedBuiltin name)
    else none

/-- The checks of `check_static_arguments` on the words behind one name. -/
def checkArguments (name : Text) (arguments : List Text) : Except Rejection Unit :=
  match refusedCommandName name with
  | some rejection => .error rejection
  | none =>
    match epshArgumentRule name with
    | some rule => (rule.validateArguments (arguments.map strToBytes)).mapError .Arguments
    | none => .ok ()

/-- The loop of `check_static_arguments`, which looks through `command`. What it
runs is shorter. -/
def checkStaticLoop : Nat → List Text → Except Rejection Unit
  | 0, _ => .ok ()
  | _, [] => .ok ()
  | n + 1, name :: rest => do
    checkArguments name (name :: rest)
    if name ≠ "command".toList then return ()
    match commandAction (name :: rest) with
    | .Execute nested => checkStaticLoop n nested
    | _ => return ()

def checkStaticArguments (words : List Word) : Except Rejection Unit :=
  checkStaticLoop (staticPrefix words).length (staticPrefix words)

/-! ## Checks -/

mutual

def checkCommand : Command → Except Rejection Unit
  | .Simple assigns args redirs _ => do
    checkStaticArguments args
    checkAssigns assigns
    checkWords args
    checkRedirs redirs
  | .Pipeline commands _ _ => checkCommands commands
  | .And left right | .Or left right | .Sequence left right => do
    checkCommand left
    checkCommand right
  | .Not inner => checkCommand inner
  | .Background _ _ => .error .Background
  | .FuncDef _ _ => .error .FunctionDefinition
  | .Subshell _ _ => .error (.Compound "subshell")
  | .BraceGroup _ _ => .error (.Compound "brace group")
  | .If _ _ _ => .error (.Compound "if")
  | .While _ _ => .error (.Compound "while")
  | .Until _ _ => .error (.Compound "until")
  | .For _ _ _ => .error (.Compound "for")
  | .Case _ _ => .error (.Compound "case")

def checkCommands : List Command → Except Rejection Unit
  | [] => .ok ()
  | command :: commands => do
    checkCommand command
    checkCommands commands

def checkAssigns : List Assignment → Except Rejection Unit
  | [] => .ok ()
  | ⟨_, ⟨parts⟩⟩ :: assigns => do
    checkParts parts
    checkAssigns assigns

def checkWords : List Word → Except Rejection Unit
  | [] => .ok ()
  | ⟨parts⟩ :: words => do
    checkParts parts
    checkWords words

def checkRedirs : List Redir → Except Rejection Unit
  | [] => .ok ()
  | ⟨_, kind, _⟩ :: redirs => do
    checkKind kind
    checkRedirs redirs

def checkKind : RedirKind → Except Rejection Unit
  | .Input ⟨parts⟩ | .Output ⟨parts⟩ | .Clobber ⟨parts⟩ | .Append ⟨parts⟩
  | .ReadWrite ⟨parts⟩ | .DupInput ⟨parts⟩ | .DupOutput ⟨parts⟩ => checkParts parts
  | .HereDoc (.Parsed parts) | .HereDocStrip (.Parsed parts) => checkParts parts
  | .HereDoc (.Literal _) | .HereDocStrip (.Literal _) => .ok ()

def checkParts : List WordPart → Except Rejection Unit
  | [] => .ok ()
  | part :: parts => do
    checkPart part
    checkParts parts

def checkPart : WordPart → Except Rejection Unit
  | .Literal _ | .SingleQuoted _ | .Tilde _ => .ok ()
  | .DoubleQuoted inner | .Arith inner => checkParts inner
  | .Param ⟨_, op, _⟩ =>
    match op with
    | .Normal | .BadSubst => .ok ()
    | _ => .error .ParameterOperator
  | .CmdSubst command | .Backtick command => checkCommand command

end

/-! ## Plans -/

/-- The builtin and the arguments of a line that is one call of it. -/
def loneBuiltin (program : Program) : Option (Builtin × List Word) :=
  match program.commands with
  | [.Simple [] (first :: args) [] _] =>
    match (staticText first).bind lookup with
    | some spec =>
      if spec.exec = .InShell ∨ spec.exec = .Hybrid then some (spec, args) else none
    | none => none
  | _ => none

/-- `plan`, by what the parser makes of the line. -/
def plan (parse : Text → Except Text Program) (line : Text) : Except Rejection Plan := do
  let program ← (parse line).mapError .Syntax
  match loneBuiltin program with
  | some (spec, args) =>
    checkWords args
    return .Builtin spec.name args
  | none =>
    checkCommands program.commands
    return .Epsh program

end Ish.Dispatch
