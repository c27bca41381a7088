import Ish.Epsh.Builtins
import Ish.Lib.EState

/-!
# What plain computations leave alone

Expansions, redirections and all builtins that do not run commands change neither
what evaluation puts back when it leaves a construct nor the history, except by
notes of their own. One lemma for each function, about any relation between the
machines before and after that allows for such changes.
-/

namespace Ish.Epsh

open Ish.Lib

/-! ## Arithmetic -/

namespace ArithParser
open EState (Keeps)

/-- The variables keep everything but their bindings. -/
def SameRest (p q : ArithParser) : Prop := q.vars.rest = p.vars.rest

instance : IsPreorder ArithParser SameRest where
  refl _ := rfl
  trans _ _ _ hpq hqr := hqr.trans hpq

theorem rest_assign (vars : Variables) (name : Text) (value : Int64) :
    (assign vars name value).rest = vars.rest := by
  unfold assign Variables.setInt
  cases vars.binding name with
  | none => rfl
  | some existing => 
    dsimp only
    split_ifs <;> rfl

@[grind ←]
theorem keeps_peek : Keeps SameRest peek := by
  unfold peek
  grind

@[grind ←]
theorem keeps_bump : Keeps SameRest bump := .modify fun _ => rfl

@[grind ←]
theorem keeps_advance : Keeps SameRest advance := by
  unfold advance
  grind

@[grind ←]
theorem keeps_expect (expected : ArithToken) : Keeps SameRest (expect expected) := by
  unfold expect
  refine .bind keeps_advance fun tok => ?_
  cases tok with
  | none => exact .throw _
  | some tok =>
    dsimp only
    split_ifs
    · exact .pure _
    · exact .throw _

@[grind ←]
theorem keeps_getVar (name : Text) : Keeps SameRest (getVar name) := by
  unfold getVar
  grind

@[grind ←]
theorem keeps_setVar (name : Text) (value : Int64) : Keeps SameRest (setVar name value) := by
  refine .modify fun p => ?_
  split_ifs
  · rfl
  · exact rest_assign p.vars name value

@[grind ←]
theorem keeps_setNoeval (noeval : Bool) : Keeps SameRest (setNoeval noeval) :=
  .modify fun _ => rfl

@[grind ←]
theorem keeps_applyBinop (tok : ArithToken) (left right : Int64) :
    Keeps SameRest (applyBinop tok left right) := by
  unfold applyBinop
  grind

@[grind ←]
theorem keeps_outOfFuel : Keeps SameRest outOfFuel := .throw _

theorem keeps_parse (n : Nat) :
    Keeps SameRest (parseExpr n) ∧ Keeps SameRest (parseAssignment n) ∧
      Keeps SameRest (parseTernary n) ∧ Keeps SameRest (parseOr n) ∧
      (∀ left, Keeps SameRest (orLoop n left)) ∧ Keeps SameRest (parseAnd n) ∧
      (∀ left, Keeps SameRest (andLoop n left)) ∧ (∀ k, Keeps SameRest (parseBinop n k)) ∧
      (∀ k left, Keeps SameRest (binopLoop n k left)) ∧ Keeps SameRest (parseUnary n) ∧
      Keeps SameRest (parsePrimary n) := by
  induction n with
  | zero =>
    simp only [parseExpr, parseAssignment, parseTernary, parseOr, orLoop, parseAnd, andLoop, parseBinop,
      binopLoop, parseUnary, keeps_outOfFuel, implies_true, true_and]
    exact keeps_outOfFuel
  | succ n ih =>
    obtain ⟨hexpr, hassign, hternary, hor, horLoop, hand, handLoop, hbinop, hbinopLoop, hunary,
      hprimary⟩ := ih
    refine ⟨?_, ?_, ?_, ?_, ?_, ?_, ?_, ?_, ?_, ?_, ?_⟩
    · rw [parseExpr]; grind
    · rw [parseAssignment]
      refine .bind keeps_peek fun tok => ?_
      split
      · refine .bind .get fun p => .bind keeps_bump fun _ => .bind keeps_peek fun op => ?_
        split_ifs
        · grind
        · split
          · grind
          · exact .bind (.modify fun _ => rfl) fun _ => hternary
      · exact hternary
    · rw [parseTernary]
      refine .bind hor fun cond => .bind keeps_peek fun op => ?_
      split
      · refine .bind keeps_bump fun _ => .bind .get fun p => .bind (keeps_setNoeval _) fun _ =>
          .bind hexpr fun then_val => .bind (keeps_expect _) fun _ => ?_
        grind
      · grind
    · rw [parseOr]; grind
    · intro left; rw [orLoop]; grind
    · rw [parseAnd]; grind
    · intro left; rw [andLoop]; grind
    · intro k; rw [parseBinop]; grind
    · intro k left
      rw [binopLoop]
      refine .bind keeps_peek fun tok => ?_
      split
      · split
        · split_ifs
          · grind
          · grind
        · grind
      · grind
    · rw [parseUnary]; grind
    · refine .bind keeps_advance fun tok => ?_
      cases tok with
      | none => exact .throw _
      | some tok =>
        cases tok with
        | Num n => exact .pure n
        | Var name => exact keeps_getVar name
        | LParen => exact .bind hexpr fun val => .bind (keeps_expect _) fun _ => .pure val
        | _ => exact .throw _

end ArithParser
theorem rest_evalArith (expr : Text) (vars : Variables) (exit_status : Int) (shell_pid : Nat) :
    (evalArith expr vars exit_status shell_pid).2.rest = vars.rest := by
  unfold evalArith
  cases tokenize expr with
  | error e => rfl
  | ok tokens =>
    have hparse := (ArithParser.keeps_parse (arithFuel tokens)).1
      { tokens, vars, exit_status, shell_pid, noeval := false }
    unfold evalArithTokens
    dsimp only
    cases hp : ArithParser.parseExpr (arithFuel tokens)
        { tokens, vars, exit_status, shell_pid, noeval := false } with
    | error e p =>
      rw [hp] at hparse
      exact hparse
    | ok result p =>
      rw [hp] at hparse
      have hrest : p.vars.rest = vars.rest := hparse
      dsimp only
      cases p.tokens <;> exact hrest

open Process (Keeps always)

variable {W : Type}

/-! ## Plain relations -/

/-- What evaluation puts back when it leaves a construct. -/
def Shell.context (sh : Shell) : Nat × Bool × PlacementContext × Bool × List Scope :=
  (sh.loop_depth, sh.tested, sh.placement_context, sh.in_forked_child, sh.vars.scopes)

/-- Nothing noted and the context unchanged. -/
structure Quiet (m t : Machine W) : Prop where
  context : t.shell.context = m.shell.context
  frames : t.frames = m.frames
  history : t.history = m.history
  others : t.others = m.others

/-- A machine with one more step in its history. -/
def Machine.note (m : Machine W) (step : Step) : Machine W :=
  { m with history := m.history ++ [⟨m.frames, step⟩] }

/-- A machine in which a variable has been made local. -/
def Machine.localize (m : Machine W) (name : Text) : Machine W :=
  let noted := m.note (.localizes name (m.shell.vars.binding name))
  { noted with shell := { m.shell with vars := m.shell.vars.makeLocal name } }

/-- The notes of expansions and redirections. -/
def Step.isPlain : Step → Bool
  | .redirects _ | .assigns .. => true
  | _ => false

/-- A relation that allows for what expansions, redirections and builtins do. -/
class Plain (P : Machine W → Machine W → Prop) : Prop extends IsPreorder (Machine W) P where
  quiet : ∀ m t, Quiet m t → P m t
  notes : ∀ m step, step.isPlain = true → P m (m.note step)
  localizes : ∀ m name, P m (m.localize name)

theorem scopes_evalArith (expr : Text) (vars : Variables) (exit_status : Int) (shell_pid : Nat) :
    (evalArith expr vars exit_status shell_pid).2.scopes = vars.scopes :=
  congrArg (·.2.1) (rest_evalArith expr vars exit_status shell_pid)

namespace Plain

variable {α : Type} {P : Machine W → Machine W → Prop} [Plain P]

/-! ## Primitives -/

@[grind ←]
theorem keeps_getShell : Keeps (always P) (getShell (W := W)) := by
  unfold getShell
  grind

theorem keeps_modifyShell {f} (h : ∀ sh, (f sh).context = sh.context) :
    Keeps (always P) (modifyShell f : ShellM W Unit) :=
  .modify fun m => quiet (P := P) m _ ⟨h m.shell, rfl, rfl, rfl⟩

theorem keeps_modifyVars {f} (h : ∀ v, (f v).scopes = v.scopes) :
    Keeps (always P) (modifyVars f : ShellM W Unit) := by
  refine keeps_modifyShell fun sh => ?_
  rw [Shell.context, Shell.context, h]

@[grind ←]
theorem keeps_outside (f : W → α × W) : Keeps (always P) (outside f) := by
  intro m e t h
  cases h
  exact quiet (P := P) m _ ⟨rfl, rfl, rfl, rfl⟩

@[grind ←]
theorem keeps_outsideIo (f : W → Except IoError α × W) : Keeps (always P) (outsideIo f) := by
  unfold outsideIo
  grind

theorem keeps_record {step} (h : step.isPlain = true) :
    Keeps (always P) (record step : ShellM W Unit) :=
  .modify fun m => notes (P := P) m step h

@[grind ←]
theorem keeps_redirects (fd : Int) : Keeps (always P) (record (.redirects fd) : ShellM W Unit) :=
  keeps_record rfl

@[grind ←]
theorem keeps_assigns (name value : Text) :
    Keeps (always P) (record (.assigns name value) : ShellM W Unit) :=
  keeps_record rfl

@[grind ←]
theorem keeps_makeLocal (name : Text) : Keeps (always P) (makeLocal name : ShellM W Unit) := by
  intro m e t h
  cases h
  exact localizes (P := P) m name

theorem keeps_tryVars {f}
    (h : ∀ v v', f v = .ok v' → v'.scopes = v.scopes) :
    Keeps (always P) (tryVars f : ShellM W (Except Text Unit)) := by
  intro m e t ht
  unfold tryVars at ht
  rw [Process.bind_ok (a := m.shell) (t := m) rfl] at ht
  cases hf : f m.shell.vars with
  | error msg =>
    rw [hf] at ht
    cases ht
    exact quiet (P := P) m m ⟨rfl, rfl, rfl, rfl⟩
  | ok v =>
    rw [hf] at ht
    cases ht
    refine quiet (P := P) m _ ⟨?_, rfl, rfl, rfl⟩
    rw [Shell.context, Shell.context, h _ _ hf]

theorem scopes_setBytes {v v' : Variables} {name value}
    (h : v.setBytes name value = .ok v') : v'.scopes = v.scopes := by
  unfold Variables.setBytes at h
  split_ifs at h
  cases h
  rfl

theorem scopes_unset {v v' : Variables} {name} (h : v.unset name = .ok v') :
    v'.scopes = v.scopes := by
  unfold Variables.unset at h
  split_ifs at h
  cases h
  rfl

@[grind ←]
theorem keeps_setShell (name value : Text) :
    Keeps (always P) (setShell name value : ShellM W (Except Text Unit)) :=
  keeps_tryVars fun _ _ h => scopes_setBytes h

variable (out : Outside W)

@[grind ←]
theorem keeps_writeOut (text : Text) : Keeps (always P) (writeOut out text) :=
  keeps_outside _

@[grind ←]
theorem keeps_writeErr (text : Text) : Keeps (always P) (writeErr out text) :=
  keeps_outside _

@[grind ←]
theorem keeps_errMsg (msg : Text) : Keeps (always P) (errMsg out msg) :=
  keeps_writeErr out _

@[grind ←]
theorem keeps_checkCancel : Keeps (always P) (checkCancel out) := by
  unfold checkCancel
  grind

@[grind ←]
theorem keeps_setExitStatus (status : ExitStatus) :
    Keeps (always P) (setExitStatus status : ShellM W Unit) :=
  keeps_modifyShell fun _ => rfl

@[grind ←]
theorem keeps_checkCallback (registered : Registered α) (kind : CallbackKind) :
    Keeps (always P) (checkCallback registered kind : ShellM W Unit) := by
  unfold checkCallback
  grind

@[grind ←]
theorem keeps_reportChildRefusal (error : ShellError) :
    Keeps (always P) (reportChildRefusal error : ShellM W Unit) := by
  unfold reportChildRefusal
  split
  · exact .modify fun m => quiet (P := P) m _ ⟨rfl, rfl, rfl, rfl⟩
  · grind

/-! ## Expansions -/

@[grind ←]
theorem keeps_rawValue (param : ParamExpr) :
    Keeps (always P) (rawValue param : ShellM W (Option Text)) := by
  unfold rawValue
  refine .bind keeps_getShell fun sh => ?_
  exact .ite (fun _ => .bind (.fail _) fun _ => .pure _) fun _ => .pure _

@[grind ←]
theorem keeps_badSubst (param : ParamExpr) : Keeps (always P) (badSubst param : ShellM W α) :=
  .fail _

@[grind ←]
theorem keeps_paramError (param : ParamExpr) (msg : Text) :
    Keeps (always P) (paramError param msg : ShellM W α) :=
  .fail _

@[grind ←]
theorem keeps_arithmetic (text : Text) :
    Keeps (always P) (arithmetic text : ShellM W (Except Text Int64)) :=
  .bind keeps_getShell fun _ =>
    .bind (keeps_modifyVars fun v => scopes_evalArith text v _ _) fun _ => .pure _

@[grind ←]
theorem keeps_globFields (fields : List Text) : Keeps (always P) (globFields out fields) := by
  induction fields with
  | nil => exact .pure _
  | cons field fields ih =>
    rw [globFields]
    grind

/-- All functions of expansion with fuel `n` are plain. -/
structure Expands (P : Machine W → Machine W → Prop) (out : Outside W)
    (subst : Command → ShellM W Text) (n : Nat) : Prop where
  inner : ∀ parts q p e, Keeps (always P) (expandWordPartsInner out subst n parts q p e)
  part : ∀ part q p e, Keeps (always P) (expandWordPart out subst n part q p e)
  quoted : ∀ parts e, Keeps (always P) (expandQuoted out subst n parts e)
  fragments : ∀ param q e, Keeps (always P) (expandParamToFragments out subst n param q e)
  param : ∀ param, Keeps (always P) (expandParam out subst n param)
  word : ∀ parts, Keeps (always P) (expandParamWord out subst n parts)
  pattern : ∀ parts, Keeps (always P) (expandPattern out subst n parts)

namespace Expands

variable {out : Outside W} {subst : Command → ShellM W Text} {n : Nat}
  (ih : Expands P out subst n)
include ih

variable (parts : List WordPart)

theorem inner_succ (q p e : Bool) :
    Keeps (always P) (expandWordPartsInner out subst (n + 1) parts q p e) := by
  cases parts with
  | nil =>
    rw [expandWordPartsInner]
    exact .pure _
  | cons part parts =>
    rw [expandWordPartsInner]
    exact .bind (ih.part part q p e) fun _ => .bind (ih.inner parts q p e) fun _ => .pure _

theorem part_succ (hsubst : ∀ cmd, Keeps (always P) (subst cmd)) (part : WordPart) (q p e : Bool) :
    Keeps (always P) (expandWordPart out subst (n + 1) part q p e) := by
  have hinner := ih.inner
  have hfragments := ih.fragments
  have hquoted := ih.quoted
  cases part with
  | Literal s | SingleQuoted s | DoubleQuoted inner | Param param | CmdSubst cmd | Backtick cmd =>
    rw [expandWordPart]; grind
  | Arith inner =>
    rw [expandWordPart]
    refine .bind (hinner inner true false false) fun fragments =>
      .bind (keeps_arithmetic _) fun result => ?_
    cases result with
    | ok value => exact .pure _
    | error e => exact .fail _
  | Tilde user => rw [expandWordPart]; grind

theorem quoted_succ (e : Bool) : Keeps (always P) (expandQuoted out subst (n + 1) parts e) := by
  have hinner := ih.inner
  have hquoted := ih.quoted
  cases parts with
  | nil => rw [expandQuoted]; grind
  | cons part parts => rw [expandQuoted]; grind

theorem fragments_succ (param : ParamExpr) (q e : Bool) :
    Keeps (always P) (expandParamToFragments out subst (n + 1) param q e) := by
  have hinner := ih.inner
  have hparam := ih.param
  have hword := ih.word
  rw [expandParamToFragments]
  refine .bind (keeps_rawValue param) fun raw_value => ?_
  grind

theorem param_succ (param : ParamExpr) :
    Keeps (always P) (expandParam out subst (n + 1) param) := by
  have hword := ih.word
  have hpattern := ih.pattern
  rw [expandParam]
  refine .bind (keeps_rawValue param) fun raw_value => ?_
  grind

theorem word_succ : Keeps (always P) (expandParamWord out subst (n + 1) parts) := by
  rw [expandParamWord]
  exact .bind (ih.inner parts true false false) fun _ => .pure _

theorem pattern_succ : Keeps (always P) (expandPattern out subst (n + 1) parts) := by
  have hinner := ih.inner
  have hparam := ih.param
  have hpattern := ih.pattern
  cases parts with
  | nil =>
    rw [expandPattern]
    exact .pure _
  | cons part parts =>
    cases part <;> rw [expandPattern] <;> grind

end Expands

section

variable {subst : Command → ShellM W Text} (hsubst : ∀ cmd, Keeps (always P) (subst cmd))
include hsubst

theorem expands (n : Nat) : Expands P out subst n := by
  induction n with
  | zero => constructor <;> intros <;> exact .diverge
  | succ n ih =>
    exact ⟨ih.inner_succ, ih.part_succ hsubst, ih.quoted_succ, ih.fragments_succ,
      ih.param_succ, ih.word_succ, ih.pattern_succ⟩

@[grind ←]
theorem keeps_expandFields (n : Nat) (word : Word) :
    Keeps (always P) (expandFields out subst n word) := by
  have hinner := (expands out hsubst n).inner
  unfold expandFields
  grind

@[grind ←]
theorem keeps_expandString (n : Nat) (word : Word) :
    Keeps (always P) (expandString out subst n word) := by
  have hinner := (expands out hsubst n).inner
  unfold expandString
  grind

@[grind ←]
theorem keeps_expandPattern (n : Nat) (parts : List WordPart) :
    Keeps (always P) (expandPattern out subst n parts) :=
  (expands out hsubst n).pattern parts

end

/-! ## Redirections -/

@[grind ←]
theorem keeps_preflightRedirects (redirs : List Redir) :
    Keeps (always P) (preflightRedirects out redirs) := by
  unfold preflightRedirects
  grind

@[grind ←]
theorem keeps_ensureTerminalDescriptor : Keeps (always P) (ensureTerminalDescriptor out) := by
  unfold ensureTerminalDescriptor
  grind

@[grind ←]
theorem keeps_combineRedirectionCleanup (primary : Except ShellError α)
    (cleanup : Except IoError Unit) :
    Keeps (always P) (combineRedirectionCleanup out primary cleanup) := by
  unfold combineRedirectionCleanup
  split
  · exact .ofExcept _
  · exact .fail _
  · exact .ite (fun _ => .bind (keeps_errMsg out _) fun _ => .fail _) fun _ => .fail _

@[grind ←]
theorem keeps_finishRedirections (primary : Except ShellError α) (saved : List Int) :
    Keeps (always P) (finishRedirections out primary saved) := by
  unfold finishRedirections
  grind

@[grind ←]
theorem keeps_finishSavedRedirections (primary : Except ShellError α) (saved : List Int) :
    Keeps (always P) (finishSavedRedirections out primary saved) := by
  unfold finishSavedRedirections
  grind

@[grind ←]
theorem keeps_openWritable (path : ShellBytes) (mode : RedirectOpenMode) (target : Int) :
    Keeps (always P) (openWritable out path mode target) := by
  unfold openWritable
  grind

section

variable {subst : Command → ShellM W Text} (hsubst : ∀ cmd, Keeps (always P) (subst cmd))
  (n : Nat)
include hsubst

theorem keeps_redirectFile (word : Word) (fd : Int) {openPath}
    (hopen : ∀ path, Keeps (always P) (openPath path)) :
    Keeps (always P) (redirectFile out subst n word fd openPath) := by
  unfold redirectFile
  refine .bind (keeps_expandString out hsubst n word) fun filename => ?_
  grind

@[grind ←]
theorem keeps_redirectDup (word : Word) (redir : Redir) :
    Keeps (always P) (redirectDup out subst n word redir) := by
  unfold redirectDup
  refine .bind (keeps_expandString out hsubst n word) fun fd_str => ?_
  split_ifs
  · exact keeps_outsideIo _
  · split
    · exact keeps_outsideIo _
    · exact .fail _

@[grind ←]
theorem keeps_redirectHereDoc (body : HereDocBody) (redir : Redir) :
    Keeps (always P) (redirectHereDoc out subst n body redir) := by
  unfold redirectHereDoc
  cases body with
  | Literal s => exact .bind (.pure _) fun _ => keeps_outsideIo _
  | Parsed parts => grind

theorem keeps_applyRedirection (redir : Redir) :
    Keeps (always P) (applyRedirection out subst n redir) := by
  unfold applyRedirection
  split
  all_goals first
    | exact keeps_redirectFile out hsubst n _ _ fun _ => keeps_outsideIo _
    | exact keeps_redirectFile out hsubst n _ _ fun _ => keeps_openWritable out _ _ _
    | grind

theorem keeps_applyRedirections (redirs : List Redir) (saved : List Int) :
    Keeps (always P) (applyRedirections out subst n redirs saved) := by
  induction redirs generalizing saved with
  | nil => exact .pure _
  | cons redir redirs ih =>
    have hround := keeps_applyRedirection out hsubst n redir
    rw [applyRedirections]
    grind

@[grind ←]
theorem keeps_setupRedirections (redirs : List Redir) :
    Keeps (always P) (setupRedirections out subst n redirs) := by
  have happly := keeps_applyRedirections out hsubst n redirs []
  unfold setupRedirections
  grind

end

/-! ## Checks of a command -/

@[grind ←]
theorem keeps_refuse (diagnostic : Text) (span : Span) :
    Keeps (always P) (refuse diagnostic span : ShellM W α) :=
  .fail _

@[grind ←]
theorem keeps_checkCommandPolicy (target : Text) (span : Span) :
    Keeps (always P) (checkCommandPolicy out target span) := by
  unfold checkCommandPolicy
  grind

@[grind ←]
theorem keeps_checkArgvPolicy (args : List Text) (span : Span) :
    Keeps (always P) (checkArgvPolicy out args span) := by
  unfold checkArgvPolicy
  grind

@[grind ←]
theorem keeps_checkArgv (target : Text) (args : List Text) (span : Span) :
    Keeps (always P) (checkArgv out target args span) := by
  unfold checkArgv checkAllowlist checkRule
  refine .bind ?_ fun _ => .bind ?_ fun _ => keeps_checkArgvPolicy out args span
  · exact .ite (fun _ => .pure _) fun _ => keeps_refuse _ span
  · split
    · split
      · exact keeps_checkCommandPolicy out target span
      · exact keeps_refuse _ span
    · exact keeps_checkCommandPolicy out target span

@[grind ←]
theorem keeps_checkHandler (name : Text) :
    Keeps (always P) (checkHandler out.host name : ShellM W Unit) := by
  unfold checkHandler
  grind

theorem keeps_preflightLoop (k : Nat) (bypass_functions : Bool) (args : List Text) :
    Keeps (always P) (preflightLoop out k bypass_functions args) := by
  induction k generalizing bypass_functions args with
  | zero => exact .pure _
  | succ k ih =>
    cases args with
    | nil => exact .pure _
    | cons name rest =>
      rw [preflightLoop]
      split
      · split
        · exact ih true _
        · exact .pure _
      · exact .bind keeps_getShell fun sh =>
          .ite (fun _ => .pure _) fun _ => keeps_checkHandler out name

@[grind ←]
theorem keeps_preflightExternal (args : List Text) :
    Keeps (always P) (preflightExternal out args) :=
  keeps_preflightLoop out _ _ args

@[grind ←]
theorem keeps_handleExecError (e : ExecError) (cmd_name : Text) :
    Keeps (always P) (handleExecError out e cmd_name) := by
  unfold handleExecError
  split
  · exact .bind (keeps_errMsg out _) fun _ => .pure _
  · split
    · exact .bind (keeps_errMsg out _) fun _ => .pure _
    · exact .bind (keeps_errMsg out _) fun _ => .pure _
    · exact .fail _

end Plain

end Ish.Epsh
