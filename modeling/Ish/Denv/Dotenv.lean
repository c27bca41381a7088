import Ish.Epsh.Var
import Ish.Lib.Text

/-!
# Reading `.env`

The model of `parse_dotenv` and `load_dotenv_entries` of `src/denv.rs`, and of the
two checks on names. What is reported for a skipped entry is left out.
-/

namespace Ish.Denv

open Ish.Epsh Ish.Lib

def isAsciiAlphabetic (byte : UInt8) : Bool :=
  (0x41 ≤ byte && byte ≤ 0x5A) || (0x61 ≤ byte && byte ≤ 0x7A)

def isAsciiAlphanumeric (byte : UInt8) : Bool :=
  isAsciiAlphabetic byte || (0x30 ≤ byte && byte ≤ 0x39)

def isValidEnvKey (key : Text) : Bool :=
  match Utf8.encode key with
  | [] => false
  | first :: bytes =>
    (isAsciiAlphabetic first || first == 0x5F) &&
      bytes.all fun byte => isAsciiAlphanumeric byte || byte == 0x5F

def isReservedDotenvKey (key : Text) : Bool :=
  key == "DENV_DATA_DIR".toList || "__DENV_".toList.isPrefixOf key

def ENVRC_SOURCE_VAR : Text := "__DENV_ENVRC_SOURCE".toList
def DOTENV_VALUE_VAR_PREFIX : Text := "__DENV_DOT_".toList

def isIgnoredEnvKey (key : Text) : Bool :=
  key == ['_'] || key == "SHLVL".toList || key == "PWD".toList || key == "OLDPWD".toList ||
    ENVRC_SOURCE_VAR.isPrefixOf key || DOTENV_VALUE_VAR_PREFIX.isPrefixOf key

/-- The escapes of a value between double quotes. -/
def unescapeValue : Text → Text
  | [] => []
  | c :: chars =>
    if c = '\\' then
      match chars with
      | [] => ['\\']
      | 'n' :: rest => '\n' :: unescapeValue rest
      | 't' :: rest => '\t' :: unescapeValue rest
      | '\\' :: rest => '\\' :: unescapeValue rest
      | '"' :: rest => '"' :: unescapeValue rest
      | '$' :: rest => '$' :: unescapeValue rest
      | other :: rest => '\\' :: other :: unescapeValue rest
    else c :: unescapeValue chars

/-- The text between a quote at each end, if there is one. -/
def unquoted (quote : Char) (value : Text) : Option Text :=
  if 2 ≤ value.length ∧ value.head? = some quote ∧ value.getLast? = some quote then
    some value.tail.dropLast
  else none

def dotenvValue (value : Text) : Text :=
  match unquoted '"' value with
  | some inner => unescapeValue inner
  | none => (unquoted '\'' value).getD value

/-- The entry of one line, unless it is a comment or has no name. -/
def dotenvLine (line : Text) : Option (Text × Text) :=
  let line := Text.trim line
  if line = [] ∨ line.head? = some '#' then none
  else
    let line := if "export ".toList.isPrefixOf line then line.drop 7 else line
    match Text.splitOnce '=' line with
    | none => none
    | some (key, value) =>
      let key := Text.trim key
      if key = [] then none else some (key, dotenvValue (Text.trim value))

def parseDotenv (content : Text) : List (Text × Text) := (Text.lines content).filterMap dotenvLine

/-- The checks on one entry. -/
def keepsEntry (entry : Text × Text) : Bool :=
  isValidEnvKey entry.1 && !isReservedDotenvKey entry.1 && !entry.2.contains '\x00'

/-- `utf8Error` is the text of the decoding error. -/
def loadDotenvEntries (utf8Error : ShellBytes → Text) (bytes : ShellBytes) :
    Except Text (List (Text × Text)) :=
  match asUtf8Str bytes with
  | none => .error ("read .env: ".toList ++ utf8Error bytes)
  | some content => .ok ((parseDotenv content).filter keepsEntry)

end Ish.Denv
