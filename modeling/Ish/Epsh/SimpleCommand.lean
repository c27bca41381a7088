import Ish.Epsh.Lawful

/-!
# Simple commands

A relation that allows for every step a simple command notes is kept by simple
commands, so that only the constructs remain to be looked at.
-/

namespace Ish.Epsh

open Ish.Lib Plain
open Process (Keeps Handles Sequential always)

variable {W : Type} {P C : Machine W → Machine W → Prop}

/-! ## What neutral computations do -/

namespace Neutral

variable [Neutral P] (out : Outside W)

theorem keeps_step {step} (h : step.isNeutral = true) :
    Keeps (always P) (record step : ShellM W Unit) :=
  .modify fun m => steps (P := P) m step h

variable (env : List (ShellBytes × ShellBytes))

theorem keeps_recordRun (kind : Ran) (argv : List Text) :
    Keeps (always P) (recordRun kind argv env : ShellM W Unit) :=
  .bind keeps_getShell fun _ => keeps_step rfl

theorem keeps_checkPolicyLoop (span : Span) (k : Nat) (args : List Text) :
    Keeps (always P) (checkPolicyLoop out span k args) := by
  induction k generalizing args with
  | zero => exact .pure _
  | succ k ih =>
    cases args with
    | nil => exact .pure _
    | cons target rest =>
      refine .bind (keeps_checkArgv out _ _ span) fun _ =>
        .bind (keeps_step rfl) fun _ => .ite (fun _ => ?_) fun _ => .pure _
      split
      · exact ih _
      · exact .pure _

theorem keeps_checkCommandPolicyForDispatch (args : List Text) (span : Span) :
    Keeps (always P) (checkCommandPolicyForDispatch out args span) :=
  keeps_checkPolicyLoop out span _ args

theorem keeps_builtinExec (args : List Text) : Keeps (always P) (builtinExec out args) := by
  unfold builtinExec
  split
  · exact .pure _
  · refine .bind keeps_getShell fun sh => .bind (keeps_recordRun _ _ _) fun _ =>
      .bind (keeps_outside _) fun executed => ?_
    split
    · exact .quit _
    · exact .bind (keeps_errMsg out _) fun _ => .pure _
    · exact .bind (keeps_errMsg out _) fun _ => .pure _
    · exact .bind (keeps_errMsg out _) fun _ => .pure _

theorem keeps_runProgram (args : List Text) : Keeps (always P) (runProgram out args env) := by
  unfold runProgram
  refine .bind keeps_getShell fun sh => .bind (keeps_recordRun _ _ _) fun _ =>
    .ite (fun _ => .bind (keeps_outside _) fun executed => ?_) fun _ =>
      .bind (keeps_outside _) fun spawned => ?_
  · split
    · exact .quit _
    · exact keeps_handleExecError out _ _
    · exact .fail _
    · exact .fail _
  · split
    · exact .pure _
    · exact keeps_handleExecError out _ _
    · exact .fail _

theorem keeps_callHandler (args : List Text) : Keeps (always P) (callHandler out args env) := by
  unfold callHandler
  dsimp only
  split
  · refine .bind (keeps_checkCallback _ _) fun _ => .bind (keeps_recordRun _ _ _) fun _ =>
      .bind (keeps_outside _) fun result => ?_
    split
    · exact .pure _
    · exact .fail _
  · refine .bind (keeps_checkCallback _ _) fun _ => .bind (keeps_recordRun _ _ _) fun _ =>
      .bind (keeps_outside _) fun result => ?_
    split
    · exact .pure _
    · exact .fail _
  · exact .pure _

section

variable {subst : Command → ShellM W Text} (hsubst : ∀ cmd, Keeps (always P) (subst cmd))
  (n : Nat)
include hsubst

theorem keeps_expandAssigns (assigns : List Assignment) :
    Keeps (always P) (expandAssigns out subst n assigns) := by
  induction assigns with
  | nil => exact .pure _
  | cons assign assigns ih =>
    exact .bind (keeps_expandString out hsubst n _) fun _ =>
      .bind (keeps_assigns _ _) fun _ => .bind ih fun _ => .pure _

theorem keeps_evalExternalPrepared (args : List Text) (assigns : List Assignment)
    (redirs : List Redir) (environment : Option (List (ShellBytes × ShellBytes))) :
    Keeps (always P) (evalExternalPrepared out subst n args assigns redirs environment) :=
  .bind (keeps_checkCancel out) fun _ =>
    .bind (keeps_setupRedirections out hsubst n redirs) fun _ =>
    .bind (keeps_expandAssigns out hsubst n assigns) fun _ =>
    .bind keeps_getShell fun _ => .bind (.attempt (keeps_runProgram out _ _)) fun _ =>
    keeps_finishRedirections out _ _

theorem keeps_callExternalHandler (args : List Text) (assigns : List Assignment) :
    Keeps (always P) (callExternalHandler out subst n args assigns) := by
  refine .bind (keeps_preflightExternal out args) fun _ =>
    .bind (keeps_expandAssigns out hsubst n assigns) fun _ => .bind keeps_getShell fun _ =>
    .bind (keeps_callHandler out _ _) fun result => ?_
  split
  · exact .pure _
  · exact keeps_evalExternalPrepared out hsubst n _ _ _ _

end

end Neutral

/-! ## What a simple command keeps -/

namespace Constructs

variable {out : Outside W} {R : Ending ExitStatus ShellError Unit → Machine W → Machine W → Prop}
  [Neutral P] [Sequential R] (h : Constructs out P C R)
  {eval : Command → ShellM W ExitStatus} (heval : ∀ cmd, Keeps R (eval cmd)) (n : Nat)
include h heval

theorem keeps_runInline (source : Text) : Keeps R (runInline out eval source) := by
  have hloop (commands : List Command) (status : ExitStatus) :
      Keeps R (runInlineLoop eval commands status) := by
    induction commands generalizing status with
    | nil => exact .pure _
    | cons cmd commands ih =>
      exact .bind (heval cmd) fun _ =>
        .bind (h.of_plain (keeps_setExitStatus _)) fun _ => ih _
  unfold runInline
  split
  · exact .bind (h.of_plain (keeps_errMsg out _)) fun _ => .pure _
  · exact hloop _ _

theorem keeps_builtinDot (args : List Text) : Keeps R (builtinDot out eval args) := by
  unfold builtinDot
  split
  · exact .bind (h.of_plain (keeps_errMsg out _)) fun _ => .fail _
  · refine .bind (h.of_plain keeps_getShell) fun sh =>
      .bind (h.of_plain (keeps_outside _)) fun file => ?_
    split
    · exact .bind (h.of_plain (keeps_errMsg out _)) fun _ => .fail _
    · refine .attempt_bind (h.keeps_runInline heval _) (fun _ => .ofExcept _) fun e => ?_
      -- a `return` ends the file, every other error goes on
      cases e with
      | Return n => exact .caught (h.forgets _ · · rfl) (.pure _)
      | _ => exact .fail

/-- A builtin, through any number of `command`s. -/
theorem keeps_tryBuiltin (depth : Nat) (args : List Text) (span : Span) :
    Keeps R (tryBuiltin out (commandSubst out eval) eval n depth args span) := by
  have hsubst := h.keeps_commandSubst heval
  have hplain {x : ShellM W ExitStatus} (hx : Keeps (always P) x) : Keeps R (some <$> x) :=
    .map (h.of_plain hx)
  induction depth generalizing args with
  | zero => exact .diverge
  | succ depth ih =>
    rw [tryBuiltin]
    split
    · exact .pure _
    · refine .bind (h.of_plain (Neutral.keeps_recordRun _ _ _)) fun _ => ?_
      split
      · exact .pure _
      · exact .pure _
      · exact .pure _
      · exact hplain (keeps_builtinEcho out args)
      · exact hplain (keeps_runUtility out _ args)
      · exact hplain (keeps_builtinCd out args)
      · exact hplain (keeps_builtinPwd out)
      · exact .bind (h.of_plain (keeps_builtinStatusOperand out args)) fun _ => .fail _
      · exact .bind (h.of_plain (keeps_builtinStatusOperand out args)) fun _ => .fail _
      · exact hplain (keeps_loopControl out _ args)
      · exact hplain (keeps_loopControl out _ args)
      · exact hplain (keeps_builtinExport out args)
      · exact hplain (keeps_builtinReadonly out args)
      · exact hplain (keeps_builtinUnset out args)
      · exact hplain (keeps_builtinSet out args)
      · exact hplain (keeps_builtinShift out args)
      · exact .map (.ite (fun _ => .pure _) fun _ => h.keeps_runInline heval _)
      · exact .map (h.keeps_builtinDot heval args)
      · exact hplain (keeps_runUtility out _ args)
      · exact hplain (keeps_builtinRead out args)
      · exact hplain (keeps_builtinLocal _)
      · exact hplain (Neutral.keeps_builtinExec out args)
      · exact hplain (keeps_describeAll (keeps_describeName out) _ _)
      · exact hplain (keeps_builtinWait out args)
      · exact hplain (keeps_builtinTrap out args)
      · exact hplain (keeps_runUtility out _ args)
      · exact hplain (keeps_runUtility out _ args)
      · exact hplain (keeps_builtinGetopts out n args)
      · split
        · exact .pure _
        · exact hplain (keeps_describeAll (keeps_describeName out) _ _)
        · exact hplain (keeps_describeAll (keeps_nameOrPath out) _ _)
        · refine .bind (h.of_plain keeps_getShell) fun sh => ?_
          split
          · exact .bind (h.of_plain (keeps_errMsg out _)) fun _ => .pure _
          · refine .bind (h.of_plain
              (Neutral.keeps_checkCommandPolicyForDispatch out _ span)) fun _ =>
              .bind (ih _) fun result => ?_
            split
            · exact .pure _
            · exact .ite (fun _ => hplain (Neutral.keeps_callExternalHandler out hsubst n _ _))
                fun _ => hplain (Neutral.keeps_evalExternalPrepared out hsubst n _ _ _ _)

theorem keeps_callBody (body : Command) (args : List Text) (assigns : List Assignment) :
    Keeps R (callBody out eval n body args assigns >>= Process.ofExcept) := by
  have hfinish (saved : List Int) (primary : Except ShellError ExitStatus) :
      Keeps (always P) (finishRedirections out primary saved) :=
    keeps_finishRedirections out primary saved
  unfold callBody
  simp only [bind_assoc, Process.ofExcept_attempt]
  refine .bind (h.of_plain (h.keeps_assignLocals heval n assigns)) fun _ =>
    .bind (h.of_plain (h.keeps_setup heval n [])) fun saved =>
    .bind (h.of_plain (Neutral.keeps_recordRun _ _ _)) fun _ =>
    .attempt_bind (heval body) (fun _ => h.of_plain (hfinish saved _)) fun e => ?_
  rcases callResult_error e with ⟨status, rfl⟩ | hresult
  · exact .caught (h.forgets _ · · rfl) (h.of_plain (hfinish saved _))
  · rw [hresult]
    exact h.handles_finish e saved

theorem keeps_evalFunction (body : Command) (args : List Text) (assigns : List Assignment) :
    Keeps R (evalFunction out eval n body args assigns) :=
  h.call _ _ (h.keeps_callBody heval n body args assigns)

theorem keeps_dispatch (assigns : List Assignment) (args : List Text) (span : Span) :
    Keeps R (dispatch out eval n assigns args span) := by
  have hsubst := h.keeps_commandSubst heval
  refine .bind (h.keeps_tryBuiltin heval n _ args span) fun result => ?_
  split
  · exact .pure _
  · refine .bind (h.of_plain keeps_getShell) fun sh => ?_
    split
    · exact .bind (h.of_plain (keeps_modifyShell fun _ => rfl)) fun _ =>
        h.keeps_evalFunction heval n _ args assigns
    · exact .ite (fun _ => h.of_plain (Neutral.keeps_callExternalHandler out hsubst n _ _))
        fun _ => h.of_plain (Neutral.keeps_evalExternalPrepared out hsubst n _ _ _ _)

omit [Sequential R] in
theorem keeps_traceAssigns (assigns : List Assignment) (trace : Text) :
    Keeps (always P) (traceAssigns out eval n assigns trace) := by
  induction assigns generalizing trace with
  | nil => exact .pure _
  | cons assign assigns ih =>
    refine .bind (.attempt (h.keeps_string heval n _)) fun result => ?_
    split
    · exact .bind (keeps_assigns _ _) fun _ => ih _
    · exact ih _

omit [Sequential R] in
theorem keeps_traceCommand (assigns : List Assignment) (args : List Text) :
    Keeps (always P) (traceCommand out eval n assigns args) :=
  .bind keeps_getShell fun _ => .ite
    (fun _ => .bind (h.keeps_traceAssigns heval n assigns _) fun _ => keeps_writeErr out _)
    fun _ => .pure _

omit [Sequential R] in
theorem keeps_evalAssignments (assigns : List Assignment) (span : Span)
    (substitutions_before : UInt64) :
    Keeps (always P) (evalAssignments out eval n assigns span substitutions_before) := by
  have hassign (assigns : List Assignment) (trace : Text) :
      Keeps (always P) (assignVariables out eval n span assigns trace) := by
    induction assigns generalizing trace with
    | nil => exact .pure _
    | cons assign assigns ih =>
      refine .bind (h.keeps_string heval n _) fun value =>
        .bind (keeps_assigns _ _) fun _ => .bind keeps_getShell fun sh =>
        .bind (keeps_setShell _ _) fun result => ?_
      split
      · exact ih _
      · exact .fail _
  refine .bind keeps_getShell fun _ => .bind (hassign _ _) fun trace =>
    .bind keeps_getShell fun sh => ?_
  exact .ite (fun _ => .bind (keeps_writeErr out _) fun _ => .pure _) fun _ => .pure _

theorem keeps_evalWords (assigns : List Assignment) (args : List Text) (redirs : List Redir)
    (span : Span) : Keeps R (evalWords out eval n assigns args redirs span) := by
  refine .bind (h.of_plain keeps_getShell) fun sh => ?_
  split
  · exact .bind (h.of_plain (keeps_errMsg out _)) fun _ => .pure _
  · have hdispatch := h.keeps_dispatch heval n assigns args span
    refine .bind (h.of_plain (Neutral.keeps_checkCommandPolicyForDispatch out _ span)) fun _ =>
      .bind (h.of_plain (keeps_preflightExternal out _)) fun _ =>
      .bind (h.of_plain (keeps_preflightRedirects out _)) fun _ =>
      .bind (h.of_plain (h.keeps_traceCommand heval n _ _)) fun _ =>
      .bind (h.of_plain (h.keeps_setup heval n redirs)) fun saved => ?_
    by_cases hexec : isExec args.length args = true
    · simp only [hexec, if_true]
      exact h.keeps_finishSaved hdispatch saved
    · simp only [hexec]
      exact h.keeps_finish hdispatch saved

theorem keeps_evalSimple (assigns : List Assignment) (args : List Word) (redirs : List Redir)
    (span : Span) : Keeps R (evalSimple out eval n assigns args redirs span) := by
  refine .bind (h.of_plain (Neutral.keeps_step rfl)) fun _ => h.simple _ ?_
  refine .bind (h.of_plain keeps_getShell) fun sh =>
    .bind (h.of_plain (h.keeps_expandArgs heval n args)) fun expanded_args =>
    .ite (fun _ => ?_) fun _ => h.keeps_evalWords heval n _ _ _ _
  exact .bind (h.of_plain (h.keeps_setup heval n redirs)) fun saved =>
    h.keeps_finish (h.of_plain (h.keeps_evalAssignments heval n _ _ _)) saved

omit heval in
theorem lawful : Lawful out P C R :=
  { h with command := fun _ n _ _ _ _ heval => h.keeps_evalSimple heval n _ _ _ _ }

end Constructs

end Ish.Epsh
