import Ish.Epsh.Arith
import Ish.Epsh.FieldSplit
import Ish.Epsh.Shell

/-!
# Word expansion

The model of `crates/epsh/src/expand.rs` on the shell's own state. Command
substitution is an argument, as it is a method of the source's `ShellExpand`,
and so is the fuel of the recursion over nested words.
-/

namespace Ish.Epsh

open Ish.Lib

variable {W : Type}

/-- `is_special_param` -/
def isSpecialParam : Text → Bool
  | [c] => ['@', '*', '#', '?', '-', '$', '!', '0'].contains c || c.isDigit
  | _ => false

def removeGlobEscapesLoop : List Text → Text
  | [] => []
  | unit :: units =>
    if unit = [CTLESC] then
      match units with
      | next :: rest => next ++ removeGlobEscapesLoop rest
      | [] => unit
    else unit ++ removeGlobEscapesLoop units

/-- Remove internal pattern-escape markers from an expansion value. -/
def removeGlobEscapes (s : Text) : Text := removeGlobEscapesLoop (shellChars s)

def protectGlobs (value : Text) (enabled : Bool) : Text :=
  if enabled then
    (shellChars value).flatMap fun unit => if unit = ['/'] then unit else CTLESC :: unit
  else value

/-- Escape the characters a pattern would take as active. -/
def escapePattern (text : Text) : Text :=
  text.flatMap fun c =>
    if ['*', '?', '[', ']', '\\', '!'].contains c then [CTLESC, c] else [c]

/-- The first of the values at which `p` holds. -/
def firstSplit (p : Text → Bool) (cut : Nat → Text) (indices : List Nat) : Option Nat :=
  indices.find? fun i => p (cut i)

def trimSuffix (out : Outside W) (value pattern : Text) (greedy : Bool) : Text :=
  let chars := shellChars value
  let indices := List.range chars.length
  match firstSplit (out.fnmatch pattern) (fun i => (chars.drop i).flatten)
      (if greedy then indices else indices.reverse) with
  | some i => (chars.take i).flatten
  | none => value

def trimPrefix (out : Outside W) (value pattern : Text) (greedy : Bool) : Text :=
  let chars := shellChars value
  let indices := (List.range chars.length).map (· + 1)
  match firstSplit (out.fnmatch pattern) (fun i => (chars.take i).flatten)
      (if greedy then indices.reverse else indices) with
  | some i => (chars.drop i).flatten
  | none => value

def expandTilde (vars : Variables) (user : ShellBytes) : Text :=
  if user.isEmpty then (vars.getShell "HOME".toList).getD ['~'] else '~' :: bytesToStr user

/-- The separator `$*` joins with. -/
def joinSeparator (vars : Variables) : Text := ((shellChars vars.ifs).head?).getD []

/-- The operators that need a set parameter under `set -u`. -/
def ParamOp.needsValue : ParamOp → Bool
  | .Normal | .Length | .TrimSuffixSmall _ | .TrimSuffixLarge _ | .TrimPrefixSmall _
  | .TrimPrefixLarge _ => true
  | _ => false

/-- A parameter's raw value; the part `expand_param_to_fragments` and
`expand_param` begin with. -/
def rawValue (param : ParamExpr) : ShellM W (Option Text) := do
  let sh ← getShell
  let raw_value :=
    if param.name = ['*'] ∨ param.name = ['@'] then
      some (sh.vars.positionalJoinShell (joinSeparator sh.vars))
    else if isSpecialParam param.name then
      sh.vars.getSpecial param.name sh.exit_status.code sh.pid sh.opts.flagsString
        sh.last_bg_pid
    else sh.vars.getShell param.name
  if raw_value.isNone && !isSpecialParam param.name && sh.opts.nounset &&
      param.op.needsValue then
    Process.fail (.Runtime (param.name ++ ": parameter not set".toList) param.span)
  return raw_value

def isUnset (colon : Bool) (raw_value : Option Text) : Bool :=
  match raw_value with
  | none => true
  | some v => colon && v.isEmpty

def lengthText (raw_value : Option Text) : Text :=
  match raw_value with
  | some v => natText (strToBytes v).length
  | none => ['0']

def badSubst {α : Type} (param : ParamExpr) : ShellM W α :=
  Process.fail (.Runtime (param.name ++ ": bad substitution".toList) param.span)

/-- The error of `${name:?word}`. -/
def paramError {α : Type} (param : ParamExpr) (msg : Text) : ShellM W α :=
  Process.fail (.Runtime
    (if msg.isEmpty then param.name ++ ": parameter not set".toList
      else param.name ++ ": ".toList ++ msg) param.span)

/-- `eval_arith` on the shell's variables. -/
def arithmetic (text : Text) : ShellM W (Except Text Int64) := do
  let sh ← getShell
  modifyVars fun v => (evalArith text v sh.exit_status.code sh.pid).2
  return (evalArith text sh.vars sh.exit_status.code sh.pid).1

def joinValues (fragments : List ExpandedWord) : Text := fragments.flatMap (·.value)

def positionalFragments (vars : Variables) (protect : Bool) : List ExpandedWord :=
  vars.positionalShellStrings.mapIdx fun index arg =>
    { value := protectGlobs arg protect, split_fields := false, word_break := decide (0 < index) }

def isAllArgs : WordPart → Bool
  | .Param ⟨['@'], .Normal, _⟩ => true
  | _ => false

section

variable (out : Outside W) (subst : Command → ShellM W Text)

mutual

def expandWordPartsInner : Nat → List WordPart → Bool → Bool → Bool →
    ShellM W (List ExpandedWord)
  | 0, _, _, _, _ => Process.diverge
  | _ + 1, [], _, _, _ => return []
  | n + 1, part :: parts, quoted_context, in_param_word, escape_quoted_globs => do
    let fragments ← expandWordPart n part quoted_context in_param_word escape_quoted_globs
    let rest ← expandWordPartsInner n parts quoted_context in_param_word escape_quoted_globs
    return fragments ++ rest

def expandWordPart : Nat → WordPart → Bool → Bool → Bool → ShellM W (List ExpandedWord)
  | 0, _, _, _, _ => Process.diverge
  | n + 1, part, quoted_context, in_param_word, escape_quoted_globs =>
    match part with
    | .Literal s => return [⟨bytesToStr s, in_param_word && !quoted_context, false⟩]
    | .SingleQuoted s => return [⟨protectGlobs (bytesToStr s) escape_quoted_globs, false, false⟩]
    | .DoubleQuoted inner => do
      let fragments ← expandQuoted n inner escape_quoted_globs
      return if inner.isEmpty then ⟨[], false, false⟩ :: fragments else fragments
    | .Param param => do
      let vars := (← getShell).vars
      match param.op with
      | .Normal =>
        if param.name = ['@'] ∧ quoted_context = false then
          return positionalFragments vars false
        else if param.name = ['*'] ∧ quoted_context = true then
          return [⟨vars.positionalJoinShell (joinSeparator vars), false, false⟩]
        else if param.name = ['*'] then
          return vars.positionalShellStrings.map fun arg => ⟨arg, true, true⟩
        else expandParamToFragments n param quoted_context escape_quoted_globs
      | _ => expandParamToFragments n param quoted_context escape_quoted_globs
    | .Tilde user => do
      let vars := (← getShell).vars
      return [⟨protectGlobs (expandTilde vars user) escape_quoted_globs, false, false⟩]
    | .CmdSubst cmd => return [⟨← subst cmd, !quoted_context, false⟩]
    | .Backtick cmd => return [⟨← subst cmd, !quoted_context, false⟩]
    | .Arith inner => do
      match ← arithmetic (joinValues (← expandWordPartsInner n inner true false false)) with
      | .ok value => return [⟨(toString value.toInt).toList, !quoted_context, false⟩]
      | .error e => Process.fail (.Runtime ("arithmetic error: ".toList ++ e) {})

/-- The parts of a double-quoted region. -/
def expandQuoted : Nat → List WordPart → Bool → ShellM W (List ExpandedWord)
  | 0, _, _ => Process.diverge
  | _ + 1, [], _ => return []
  | n + 1, part :: parts, escape_quoted_globs => do
    let fragments ←
      if isAllArgs part then do
        pure (positionalFragments (← getShell).vars escape_quoted_globs)
      else do
        let value := joinValues (← expandWordPartsInner n [part] true false false)
        pure [⟨protectGlobs value escape_quoted_globs, false, false⟩]
    let rest ← expandQuoted n parts escape_quoted_globs
    return fragments ++ rest

def expandParamToFragments : Nat → ParamExpr → Bool → Bool → ShellM W (List ExpandedWord)
  | 0, _, _, _ => Process.diverge
  | n + 1, param, quoted_context, escape_quoted_globs => do
    let raw_value ← rawValue param
    let whole := fun value => [(⟨value, !quoted_context, false⟩ : ExpandedWord)]
    match param.op with
    | .BadSubst => badSubst param
    | .Normal => return whole (raw_value.getD [])
    | .Length => return whole (lengthText raw_value)
    | .Default colon word =>
      if isUnset colon raw_value then
        expandWordPartsInner n word quoted_context true escape_quoted_globs
      else return whole (raw_value.getD [])
    | .Assign colon word =>
      if isUnset colon raw_value then do
        let value := removeGlobEscapes (← expandParamWord n word)
        let _ ← setShell param.name value
        return whole value
      else return whole (raw_value.getD [])
    | .Error colon word =>
      if isUnset colon raw_value then do
        let msg ← expandParamWord n word
        paramError param msg
      else return whole (raw_value.getD [])
    | .Alternative colon word =>
      if isUnset colon raw_value then return []
      else expandWordPartsInner n word quoted_context true escape_quoted_globs
    | _ => return whole (← expandParam n param)

def expandParam : Nat → ParamExpr → ShellM W Text
  | 0, _ => Process.diverge
  | n + 1, param => do
    let raw_value ← rawValue param
    match param.op with
    | .BadSubst => badSubst param
    | .Normal => return raw_value.getD []
    | .Length => return lengthText raw_value
    | .Default colon word =>
      if isUnset colon raw_value then expandParamWord n word else return raw_value.getD []
    | .Assign colon word =>
      if isUnset colon raw_value then do
        let value ← expandParamWord n word
        let _ ← setShell param.name value
        return value
      else return raw_value.getD []
    | .Error colon word =>
      if isUnset colon raw_value then do
        let msg ← expandParamWord n word
        paramError param msg
      else return raw_value.getD []
    | .Alternative colon word =>
      if isUnset colon raw_value then return [] else expandParamWord n word
    | .TrimSuffixSmall pattern =>
      return trimSuffix out (raw_value.getD []) (← expandPattern n pattern) false
    | .TrimSuffixLarge pattern =>
      return trimSuffix out (raw_value.getD []) (← expandPattern n pattern) true
    | .TrimPrefixSmall pattern =>
      return trimPrefix out (raw_value.getD []) (← expandPattern n pattern) false
    | .TrimPrefixLarge pattern =>
      return trimPrefix out (raw_value.getD []) (← expandPattern n pattern) true

def expandParamWord : Nat → List WordPart → ShellM W Text
  | 0, _ => Process.diverge
  | n + 1, parts => return joinValues (← expandWordPartsInner n parts true false false)

/-- Expand word parts into a pattern: what was quoted or expanded is escaped. -/
def expandPattern : Nat → List WordPart → ShellM W Text
  | 0, _ => Process.diverge
  | _ + 1, [] => return []
  | n + 1, part :: parts => do
    let text ← match part with
      | .Literal s => pure (bytesToStr s)
      | .SingleQuoted s => pure (escapePattern (bytesToStr s))
      | .DoubleQuoted inner => do
        pure (escapePattern (joinValues (← expandWordPartsInner n inner true false false)))
      | .Param param => do pure (escapePattern (← expandParam n param))
      | part => do
        pure (escapePattern (joinValues (← expandWordPartsInner n [part] true false false)))
    return text ++ (← expandPattern n parts)

end

/-- Pathname expansion of the fields of a word. -/
def globFields : List Text → ShellM W (List Text)
  | [] => return []
  | field :: fields => do
    let sh ← getShell
    let names ←
      if !sh.opts.noglob && out.hasGlobChars field then do
        let names ← outside (out.glob field sh.cwd)
        pure (if names.isEmpty then [removeGlobEscapes field] else names)
      else pure [removeGlobEscapes field]
    return names ++ (← globFields fields)

/-- `expand_word_to_fields` -/
def expandFields (n : Nat) (word : Word) : ShellM W (List Text) := do
  let fragments ← expandWordPartsInner out subst n word.parts false false true
  let ifs := (← getShell).vars.ifs
  globFields out (fieldSplit fragments ifs)

/-- `expand_word_to_string` -/
def expandString (n : Nat) (word : Word) : ShellM W Text :=
  return joinValues (← expandWordPartsInner out subst n word.parts true false false)

end

end Ish.Epsh
