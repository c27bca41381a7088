import Ish.Epsh.Dispatch

/-!
# The builtins ish exposes

The model of the tables in `src/builtin.rs` that decide where a name may run:
the builtins of ish with their execution class, and those of epsh with the rule
for their arguments. Handlers in the shell and help texts are left out.
-/

namespace Ish.Dispatch

open Ish.Epsh (Text ShellBytes CommandRule)

/-- Where an ish-owned builtin may run. -/
inductive Exec where
  | InShell
  | Hybrid
  | Foreground
deriving DecidableEq

inductive ExternalCommand where
  | Copy
  | Move
  | List
  | ListHidden
  | ClearScreen
  | History
deriving DecidableEq

structure Builtin where
  name : Text
  exec : Exec
  external_command : Option ExternalCommand
deriving DecidableEq

namespace Builtin

def inShell (name : Text) : Builtin := { name, exec := .InShell, external_command := none }

def hybrid (name : Text) (stateless : Option ExternalCommand) : Builtin :=
  { name, exec := .Hybrid, external_command := stateless }

def foreground (name : Text) (command : ExternalCommand) : Builtin :=
  { name, exec := .Foreground, external_command := some command }

end Builtin

def ISH_BUILTINS : List Builtin :=
  [.inShell "?".toList, .inShell "alias".toList, .hybrid "cd".toList none,
    .inShell "copy-scrollback".toList, .foreground "cp".toList .Copy,
    .foreground "c".toList .ClearScreen, .inShell "denv".toList, .inShell "exit".toList,
    .inShell "fg".toList, .hybrid "history".toList (some .History), .inShell "ish-dump".toList,
    .foreground "l".toList .List, .foreground "ll".toList .ListHidden,
    .foreground "mv".toList .Move, .inShell "rmrf".toList, .inShell "type".toList,
    .inShell "w".toList, .inShell "which".toList, .inShell "z".toList]

structure EpshBuiltin where
  name : Text
  arguments : Option CommandRule

def EpshBuiltin.anyArguments (name : Text) : EpshBuiltin := { name, arguments := none }

def EPSH_BUILTINS : List EpshBuiltin :=
  [.anyArguments "echo".toList, .anyArguments "printf".toList, .anyArguments "pwd".toList,
    .anyArguments "true".toList, .anyArguments "false".toList, .anyArguments ":".toList,
    .anyArguments "test".toList, .anyArguments "[".toList, .anyArguments "kill".toList,
    .anyArguments "export".toList, .anyArguments "unset".toList,
    { name := "set".toList, arguments := some .VariableAssignment },
    .anyArguments "command".toList]

/-- `epsh_builtin_names`: what epsh runs here, hybrid fallbacks included. -/
def epshBuiltinNames : List Text :=
  EPSH_BUILTINS.map EpshBuiltin.name ++
    (ISH_BUILTINS.filter fun builtin =>
      builtin.exec = .Hybrid && builtin.external_command.isNone).map Builtin.name

/-- `epsh_argument_rule` -/
def epshArgumentRule (name : Text) : Option CommandRule :=
  (EPSH_BUILTINS.find? (·.name = name)).bind EpshBuiltin.arguments

def lookup (name : Text) : Option Builtin := ISH_BUILTINS.find? (·.name = name)

end Ish.Dispatch
