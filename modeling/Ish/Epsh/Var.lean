import Mathlib.Data.List.AList
import Ish.Epsh.Encoding
import Ish.Lib.Numeral

/-!
# Shell variables

The model of `crates/epsh/src/var.rs`. A `ShellBytes` is its bytes, and the hash
map of variables is an `AList` (one entry a name). The integer cache of a
variable is always the parse of its value: `Var` carries that as a field, so
every operation that writes a value has to establish it.
-/

namespace Ish.Epsh

open Ish.Lib

abbrev Text := List Char

abbrev ShellBytes := List UInt8

/-- `ShellBytes::from(&str)`: the text's own bytes, not the lossless decoding. -/
def ShellBytes.ofText (text : Text) : ShellBytes := Utf8.encode text

def asUtf8Str (bytes : ShellBytes) : Option Text :=
  match fromUtf8 bytes with
  | .ok text => some text
  | .error _ => none

@[simp] theorem asUtf8Str_ofText (text : Text) :
    asUtf8Str (ShellBytes.ofText text) = some text := by
  simp [asUtf8Str, ShellBytes.ofText]

theorem eq_ofText {bytes text} (h : asUtf8Str bytes = some text) :
    bytes = ShellBytes.ofText text := by
  rw [asUtf8Str] at h
  cases hread : fromUtf8 bytes with
  | error e => simp [hread] at h
  | ok read =>
    rw [hread] at h
    obtain rfl := Option.some.inj h
    exact fromUtf8_eq_ok hread

def isNameByte (b : UInt8) : Bool :=
  b == 0x5F || (0x41 ≤ b && b ≤ 0x5A) || (0x61 ≤ b && b ≤ 0x7A)

/-- Whether `is_shell_name_bytes` returns a name. -/
def isShellNameBytes (bytes : ShellBytes) : Bool :=
  match bytes with
  | [] => false
  | first :: rest => isNameByte first && rest.all fun b => isNameByte b || (0x30 ≤ b && b ≤ 0x39)

/-- The bits of the source's `VarFlags(u8)`. -/
structure VarFlags where
  EXPORT : Bool := false
  READONLY : Bool := false
deriving DecidableEq, Repr

def intCache (value : Option ShellBytes) : Option Int64 :=
  (value.bind asUtf8Str).bind Numeral.parseI64

/-- A shell variable; without a value it is declared but unset. -/
structure Var where
  value : Option ShellBytes
  flags : VarFlags
  int_cache : Option Int64
  cached : int_cache = intCache value
deriving DecidableEq

def Var.new (value : Option ShellBytes) (flags : VarFlags) : Var :=
  { value, flags, int_cache := intCache value, cached := rfl }

/-- The cache adds nothing to a variable. -/
theorem Var.eq_new (v : Var) : v = Var.new v.value v.flags := by
  obtain ⟨value, flags, cache, hcache⟩ := v
  subst hcache
  rfl

structure SavedVar where
  name : Text
  previous : Option Var

structure Scope where
  saved : List SavedVar

structure Variables where
  vars : AList fun _ : Text => Var
  inherited_env : List (ShellBytes × ShellBytes)
  scopes : List Scope
  positional : List ShellBytes
  arg0 : ShellBytes

namespace Variables

/-- Variables with no inherited environment. -/
def newClean : Variables where
  vars := (∅ : AList fun _ : Text => Var).insert "IFS".toList
    (Var.new (some (ShellBytes.ofText " \t\n".toList)) {})
  inherited_env := []
  scopes := []
  positional := []
  arg0 := ShellBytes.ofText "epsh".toList

def binding (v : Variables) (name : Text) : Option Var := v.vars.lookup name

def getBytes (v : Variables) (name : Text) : Option ShellBytes :=
  (v.binding name).bind (·.value)

def get (v : Variables) (name : Text) : Option Text :=
  (v.getBytes name).bind asUtf8Str

def getShell (v : Variables) (name : Text) : Option Text :=
  (v.getBytes name).map bytesToStr

def getInt (v : Variables) (name : Text) : Option Int64 :=
  (v.binding name).bind (·.int_cache)

def isReadonly (v : Variables) (name : Text) : Bool :=
  (v.binding name).any (·.flags.READONLY)

def readonlyError (name : Text) : Text := name ++ ": readonly variable".toList

/-- `entry(name).or_insert_with(|| Var::new(None, VarFlags::new()))` -/
def entry (v : Variables) (name : Text) : Var :=
  (v.binding name).getD (Var.new none {})

def insert (v : Variables) (name : Text) (var : Var) : Variables :=
  { v with vars := v.vars.insert name var }

def setBytes (v : Variables) (name : Text) (value : ShellBytes) :
    Except Text Variables :=
  if v.isReadonly name then .error (readonlyError name)
  else .ok (v.insert name (Var.new (some value) (v.entry name).flags))

def set (v : Variables) (name value : Text) : Except Text Variables :=
  v.setBytes name (ShellBytes.ofText value)

def setShell (v : Variables) (name value : Text) : Except Text Variables :=
  v.setBytes name (strToBytes value)

/-- The cache is the integer itself, whose text parses back to it. -/
def intVar (value : Int64) (flags : VarFlags) : Var where
  value := some (ShellBytes.ofText (Numeral.i64ToString value))
  flags := flags
  int_cache := some value
  cached := by simp [intCache]

def setInt (v : Variables) (name : Text) (value : Int64) : Except Text Variables :=
  match v.binding name with
  | some existing =>
    if existing.flags.READONLY then .error (readonlyError name)
    else .ok (v.insert name (intVar value existing.flags))
  | none => .ok (v.insert name (intVar value {}))

def unset (v : Variables) (name : Text) : Except Text Variables :=
  if v.isReadonly name then .error (readonlyError name)
  else .ok { v with vars := v.vars.erase name }

/-- `Variables::export` -/
def exportVar (v : Variables) (name : Text) : Variables :=
  let var := v.entry name
  v.insert name { var with flags := { var.flags with EXPORT := true } }

def declare (v : Variables) (name : Text) : Variables :=
  v.insert name (v.entry name)

def unexport (v : Variables) (name : Text) : Variables :=
  match v.binding name with
  | some var => v.insert name { var with flags := { var.flags with EXPORT := false } }
  | none => v

def setReadonly (v : Variables) (name : Text) : Variables :=
  let var := v.entry name
  v.insert name { var with flags := { var.flags with READONLY := true } }

/-- Push a new scope (for function calls). -/
def pushScope (v : Variables) : Variables := { v with scopes := ⟨[]⟩ :: v.scopes }

/-- Put a saved binding back. -/
def restoreVar (vars : AList fun _ : Text => Var) (saved : SavedVar) :
    AList fun _ : Text => Var :=
  match saved.previous with
  | some var => vars.insert saved.name var
  | none => vars.erase saved.name

/-- Pop the current scope, the last variable saved in it first. -/
def popScope (v : Variables) : Variables :=
  match v.scopes with
  | scope :: scopes => { v with scopes, vars := scope.saved.reverse.foldl restoreVar v.vars }
  | [] => v

/-- Declare a local variable in the current scope, if there is one. -/
def makeLocal (v : Variables) (name : Text) : Variables :=
  match v.scopes with
  | scope :: scopes =>
    { v with scopes := ⟨scope.saved ++ [⟨name, v.binding name⟩]⟩ :: scopes }
  | [] => v

/-- Exported variables that have a value, as raw bytes. -/
def exportedEnvBytes (v : Variables) : List (Text × ShellBytes) :=
  v.vars.entries.filterMap fun entry =>
    if entry.2.flags.EXPORT then entry.2.value.map (entry.1, ·) else none

/-- The environment of a child, the prefix assignments of its command last. -/
def envForCommandOs (v : Variables) (assigns : List (Text × ShellBytes)) :
    List (ShellBytes × ShellBytes) :=
  let assigned := assigns.map fun a => ShellBytes.ofText a.1
  let exported := v.exportedEnvBytes.map fun e => (ShellBytes.ofText e.1, e.2)
  let shadowed := exported.map (·.1) ++ assigned
  v.inherited_env.filter (fun e => !shadowed.contains e.1) ++
    exported.filter (fun e => !assigned.contains e.1) ++
    assigns.map fun a => (ShellBytes.ofText a.1, a.2)

def positionalShellStrings (v : Variables) : List Text := v.positional.map bytesToStr

def positionalJoinShell (v : Variables) (sep : Text) : Text :=
  List.intercalate sep (v.positional.map bytesToStr)

/-- `str::parse::<usize>` of a parameter name. -/
def parameterNumber (name : Text) : Option Nat :=
  (Numeral.parseU64 name).map UInt64.toNat

/-- The value of a special parameter, or of the variable of that name. -/
def getSpecial (v : Variables) (name : Text) (exitStatus : Int) (shellPid : Nat)
    (shellFlags : Text) (lastBgPid : Option Nat) : Option Text :=
  if name = ['?'] then some (toString exitStatus).toList
  else if name = ['$'] then some (Nat.toDigits 10 shellPid)
  else if name = ['#'] then some (Nat.toDigits 10 v.positional.length)
  else if name = ['0'] then some (bytesToStr v.arg0)
  else if name = ['-'] then some shellFlags
  else if name = ['!'] then lastBgPid.map (Nat.toDigits 10)
  else if name = ['@'] ∨ name = ['*'] then some (v.positionalJoinShell [' '])
  else match parameterNumber name with
    | some n => if 1 ≤ n then (v.positional[n - 1]?).map bytesToStr else none
    | none => v.getShell name

/-- The value of `IFS`, which stands even when the variable is unset. -/
def ifs (v : Variables) : Text := (v.getShell "IFS".toList).getD " \t\n".toList

/-! ## What each operation does to the bindings -/

/-- What no operation on variables touches. -/
def rest (v : Variables) :
    List (ShellBytes × ShellBytes) × List Scope × List ShellBytes × ShellBytes :=
  (v.inherited_env, v.scopes, v.positional, v.arg0)

@[simp] theorem binding_insert (v : Variables) (name : Text) (var : Var) :
    (v.insert name var).binding = Function.update v.binding name (some var) := by
  funext other
  by_cases h : other = name
  · subst h
    simp [binding, insert]
  · simp [binding, insert, h]

@[simp] theorem rest_insert (v : Variables) (name : Text) (var : Var) :
    (v.insert name var).rest = v.rest := rfl

theorem binding_erase (v : Variables) (name : Text) :
    { v with vars := v.vars.erase name }.binding =
      Function.update v.binding name none := by
  funext other
  by_cases h : other = name
  · subst h
    simp [binding]
  · simp [binding, h]

end Variables

end Ish.Epsh
