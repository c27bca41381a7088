import Ish.Epsh.Plain

/-!
# Builtins leave the context alone

One lemma for each builtin that runs no commands, about any plain relation between
the machines before and after.
-/

namespace Ish.Epsh.Plain

open Ish.Lib
open Process (Keeps always)

variable {W : Type} {P : Machine W → Machine W → Prop} [Plain P] (out : Outside W)

/-! ## Children -/

theorem keeps_setEnded (f : List (Nat × ChildEnd) → List (Nat × ChildEnd)) :
    Keeps (always P) (modify fun m => { m with ended := f m.ended } : ShellM W Unit) :=
  .modify fun m => quiet (P := P) m _ ⟨rfl, rfl, rfl, rfl⟩

theorem keeps_waitOwnedChild (pid : Nat) : Keeps (always P) (waitOwnedChild out pid) := by
  unfold waitOwnedChild
  refine .bind .get fun m => ?_
  split
  · exact .fail _
  · refine .bind (keeps_outside _) fun waited => ?_
    split
    · exact .fail _
    · exact .bind (keeps_setEnded _) fun _ => .ofExcept _

theorem keeps_waitAll (pids : List Nat) : Keeps (always P) (waitAll out pids) := by
  induction pids with
  | nil => exact .pure _
  | cons pid pids ih =>
    rw [waitAll]
    refine .bind .get fun m => .ite (fun _ => ?_) fun _ => ?_
    · exact .bind (keeps_waitOwnedChild out pid) fun _ => ih
    · exact ih

theorem keeps_waitOperands (operands : List Text) (status : ExitStatus) :
    Keeps (always P) (waitOperands out operands status) := by
  induction operands generalizing status with
  | nil => exact .pure _
  | cons operand operands ih =>
    rw [waitOperands]
    refine .bind .get fun m => ?_
    dsimp only
    split
    · exact .bind (keeps_waitOwnedChild out _) fun _ => ih _
    · exact .bind (keeps_errMsg out _) fun _ => ih _

theorem keeps_builtinWait (args : List Text) : Keeps (always P) (builtinWait out args) := by
  unfold builtinWait
  refine .ite (fun _ => ?_) fun _ => keeps_waitOperands out _ _
  exact .bind .get fun m => keeps_waitAll out _

/-! ## Control flow -/

theorem keeps_builtinStatusOperand (args : List Text) :
    Keeps (always P) (builtinStatusOperand out args) := by
  unfold builtinStatusOperand
  split
  · exact .bind keeps_getShell fun _ => .pure _
  · split
    · exact .pure _
    · exact .bind (keeps_errMsg out _) fun _ => .fail _

theorem keeps_loopControl (leave : Nat → ShellError) (args : List Text) :
    Keeps (always P) (loopControl out leave args) := by
  unfold loopControl
  refine .bind keeps_getShell fun sh => ?_
  dsimp only
  split
  · exact .ite (fun _ => .pure _) fun _ => .fail _
  · split
    · exact .ite (fun _ => .pure _) fun _ => .fail _
    · exact .bind (keeps_errMsg out _) fun _ => .fail _

/-! ## Variables, options and parameters -/

theorem scopes_exportVar (v : Variables) (name : Text) : (v.exportVar name).scopes = v.scopes :=
  rfl

theorem scopes_setReadonly (v : Variables) (name : Text) :
    (v.setReadonly name).scopes = v.scopes := rfl

theorem keeps_markOperands (builtin : Text) {mark}
    (hmark : ∀ v name, (mark v name).scopes = v.scopes) (args : List Text) :
    Keeps (always P) (markOperands out builtin mark args) := by
  have hmarks (name : Text) : Keeps (always P) (modifyVars (fun v => mark v name) : ShellM W Unit) :=
    keeps_modifyVars fun v => hmark v name
  induction args with
  | nil => exact .pure _
  | cons arg args ih =>
    rw [markOperands]
    split
    · refine .bind (keeps_setShell _ _) fun result => ?_
      split
      · exact .bind (hmarks _) fun _ => ih
      · exact .bind (keeps_errMsg out _) fun _ => .pure _
    · exact .bind (hmarks _) fun _ => ih

theorem keeps_listExported (line : Text → Text → Text) (entries : List (Text × ShellBytes)) :
    Keeps (always P) (listExported out line entries) := by
  induction entries with
  | nil => exact .pure _
  | cons entry entries ih => exact .bind (keeps_writeOut out _) fun _ => ih

theorem keeps_builtinExport (args : List Text) : Keeps (always P) (builtinExport out args) := by
  unfold builtinExport
  refine .ite (fun _ => ?_) fun _ => keeps_markOperands out _ scopes_exportVar _
  exact .bind keeps_getShell fun _ => keeps_listExported out _ _

theorem keeps_builtinReadonly (args : List Text) : Keeps (always P) (builtinReadonly out args) :=
  keeps_markOperands out _ scopes_setReadonly _

theorem keeps_unsetNames (unset_funcs : Bool) (names : List Text) (status : ExitStatus) :
    Keeps (always P) (unsetNames out unset_funcs names status) := by
  induction names generalizing status with
  | nil => exact .pure _
  | cons arg args ih =>
    rw [unsetNames]
    refine .ite (fun _ => ?_) fun _ => ?_
    · exact .bind (keeps_modifyShell fun _ => rfl) fun _ => ih _
    · refine .bind (keeps_tryVars fun _ _ h => scopes_unset h) fun result => ?_
      split
      · exact ih _
      · exact .bind (keeps_errMsg out _) fun _ => ih _

theorem keeps_builtinUnset (args : List Text) : Keeps (always P) (builtinUnset out args) :=
  keeps_unsetNames out _ _ _

theorem keeps_setPositional (args : List Text) :
    Keeps (always P) (setPositional args : ShellM W Unit) :=
  keeps_modifyVars fun _ => rfl

theorem keeps_modifyOpts (f : ShellOpts → ShellOpts) :
    Keeps (always P) (modifyOpts f : ShellM W Unit) :=
  keeps_modifyShell fun _ => rfl

theorem keeps_setExported (name : Text) (words : List Text) :
    Keeps (always P) (setExported out name words) := by
  unfold setExported
  refine .bind (keeps_setShell _ _) fun result => ?_
  split
  · exact .bind (keeps_modifyVars fun v => scopes_exportVar v name) fun _ => .pure _
  · exact .bind (keeps_errMsg out _) fun _ => .pure _

theorem keeps_unknownOption (option : Text) : Keeps (always P) (unknownOption out option) :=
  .bind (keeps_errMsg out _) fun _ => .pure _

theorem keeps_setLoop (k : Nat) (args : List Text) : Keeps (always P) (setLoop out k args) := by
  induction k generalizing args with
  | zero => exact .pure _
  | succ k ih =>
    cases args with
    | nil => exact .pure _
    | cons arg args =>
      rw [setLoop]
      refine .bind keeps_getShell fun sh => ?_
      dsimp only
      -- one case for each kind of argument
      refine .ite (fun _ => .bind (keeps_setPositional _) fun _ => .pure _) fun _ =>
        .ite (fun _ => .bind (keeps_modifyOpts _) fun _ => ih _) fun _ =>
        .ite (fun _ => ?_) fun _ => .ite (fun _ => ?_) fun _ =>
        .ite (fun _ => keeps_setExported out _ _) fun _ =>
          .bind (keeps_setPositional _) fun _ => .pure _
      · split
        · exact .bind (keeps_modifyOpts _) fun _ => ih _
        · exact keeps_unknownOption out _
      · refine .bind (keeps_modifyOpts _) fun _ => ?_
        split
        · exact keeps_unknownOption out _
        · exact ih _

theorem keeps_builtinSet (args : List Text) : Keeps (always P) (builtinSet out args) := by
  unfold builtinSet
  refine .ite (fun _ => ?_) fun _ => keeps_setLoop out _ _
  exact .bind keeps_getShell fun _ => keeps_listExported out _ _

theorem keeps_builtinShift (args : List Text) : Keeps (always P) (builtinShift out args) := by
  unfold builtinShift
  refine .bind keeps_getShell fun sh => .ite (fun _ => ?_) fun _ => ?_
  · exact .bind (keeps_errMsg out _) fun _ => .pure _
  · exact .bind (keeps_modifyVars fun _ => rfl) fun _ => .pure _

theorem keeps_builtinLocal (args : List Text) :
    Keeps (always P) (builtinLocal args : ShellM W ExitStatus) := by
  induction args with
  | nil => exact .pure _
  | cons arg args ih =>
    rw [builtinLocal]
    split
    · exact .bind (keeps_makeLocal _) fun _ => .bind (keeps_setShell _ _) fun _ => ih
    · exact .bind (keeps_makeLocal _) fun _ => ih

/-! ## The outside -/

theorem keeps_builtinEcho (args : List Text) : Keeps (always P) (builtinEcho out args) :=
  .bind (keeps_writeOut out _) fun _ => .pure _

theorem keeps_changeDirectory (dir : Text) : Keeps (always P) (changeDirectory out dir) := by
  unfold changeDirectory
  refine .bind keeps_getShell fun sh => .bind (keeps_outside _) fun result => ?_
  split
  · exact .bind (keeps_modifyShell fun _ => rfl) fun _ =>
      .bind (keeps_tryVars fun _ _ h => scopes_setBytes h) fun _ => .pure _
  · exact .bind (keeps_errMsg out _) fun _ => .pure _
  · exact .bind (keeps_errMsg out _) fun _ => .pure _

theorem keeps_builtinCd (args : List Text) : Keeps (always P) (builtinCd out args) := by
  unfold builtinCd
  split
  · exact keeps_changeDirectory out _
  · refine .bind keeps_getShell fun sh => ?_
    split
    · exact keeps_changeDirectory out _
    · exact .bind (keeps_errMsg out _) fun _ => .pure _

theorem keeps_builtinPwd : Keeps (always P) (builtinPwd out) :=
  .bind keeps_getShell fun _ => .bind (keeps_writeOut out _) fun _ => .pure _

theorem keeps_runUtility (utility : Utility) (args : List Text) :
    Keeps (always P) (runUtility out utility args) :=
  .bind keeps_getShell fun _ => keeps_outside _

theorem keeps_which (name : Text) : Keeps (always P) (which out name) :=
  .bind keeps_getShell fun _ => keeps_outside _

theorem keeps_describeName (name : Text) : Keeps (always P) (describeName out name) := by
  have hfound (text : Text) : Keeps (always P)
      (do writeOut out text; return ExitStatus.SUCCESS : ShellM W ExitStatus) :=
    .bind (keeps_writeOut out _) fun _ => .pure _
  have hmissing (text : Text) : Keeps (always P)
      (do errMsg out text; return ExitStatus.FAILURE : ShellM W ExitStatus) :=
    .bind (keeps_errMsg out _) fun _ => .pure _
  unfold describeName
  refine .ite (fun _ => hmissing _) fun _ => .bind keeps_getShell fun sh =>
    .ite (fun _ => hfound _) fun _ => .ite (fun _ => hfound _) fun _ =>
    .bind (keeps_which out name) fun path => ?_
  split
  · exact hfound _
  · exact hmissing _

theorem keeps_nameOrPath (name : Text) : Keeps (always P) (nameOrPath out name) := by
  unfold nameOrPath
  refine .ite (fun _ => .pure _) fun _ => .bind keeps_getShell fun sh =>
    .ite (fun _ => .bind (keeps_writeOut out _) fun _ => .pure _) fun _ =>
    .bind (keeps_which out name) fun path => ?_
  split
  · exact .bind (keeps_writeOut out _) fun _ => .pure _
  · exact .pure _

theorem keeps_describeAll {describe}
    (h : ∀ name, Keeps (always P) (describe name)) (names : List Text) (status : ExitStatus) :
    Keeps (always P) (describeAll describe names status) := by
  induction names generalizing status with
  | nil => exact .pure _
  | cons name names ih => exact .bind (h name) fun _ => ih _

/-! ## Traps -/

theorem keeps_setTrap (name : Text) (action : Option Text) :
    Keeps (always P) (setTrap name action : ShellM W Unit) :=
  keeps_modifyShell fun _ => rfl

theorem keeps_trapCondition (action : Option Text) (sig_name : Text) :
    Keeps (always P) (trapCondition out action sig_name) := by
  unfold trapCondition
  refine .ite (fun _ => .bind (keeps_setTrap _ _) fun _ => .pure _) fun _ => ?_
  split
  · exact .bind (keeps_errMsg out _) fun _ => .pure _
  · refine .bind (keeps_outside _) fun result => ?_
    split
    · exact .bind (keeps_setTrap _ _) fun _ => .pure _
    · exact .bind (keeps_errMsg out _) fun _ => .pure _

theorem keeps_listTraps (traps : List (Sigma fun _ : Text => Text)) :
    Keeps (always P) (listTraps out traps) := by
  induction traps with
  | nil => exact .pure _
  | cons trap traps ih => exact .bind (keeps_writeOut out _) fun _ => ih

theorem keeps_trapAll (action : Option Text) (names : List Text) (status : ExitStatus) :
    Keeps (always P) (trapAll out action names status) := by
  induction names generalizing status with
  | nil => exact .pure _
  | cons name names ih => exact .bind (keeps_trapCondition out action name) fun _ => ih _

theorem keeps_builtinTrap (args : List Text) : Keeps (always P) (builtinTrap out args) := by
  unfold builtinTrap
  refine .bind keeps_getShell fun sh => ?_
  dsimp only
  split
  · exact keeps_listTraps out _
  · split
    · exact .pure _
    · exact .ite (fun _ => keeps_listTraps out _) fun _ => keeps_trapCondition out _ _
    · exact keeps_trapAll out _ _ _

/-! ## `read` and `getopts` -/

theorem keeps_assignAll (builtin : Text) (pairs : List (Text × Text)) (status : ExitStatus) :
    Keeps (always P) (assignAll out builtin pairs status) := by
  induction pairs with
  | nil => exact .pure _
  | cons pair pairs ih =>
    obtain ⟨name, value⟩ := pair
    rw [assignAll]
    refine .bind (keeps_setShell _ _) fun result => ?_
    split
    · exact ih
    · exact .bind (keeps_errMsg out _) fun _ => .pure _

theorem keeps_builtinRead (args : List Text) : Keeps (always P) (builtinRead out args) := by
  unfold builtinRead
  refine .bind (keeps_outside _) fun line => .ite (fun _ => keeps_assignAll out _ _ _) fun _ => ?_
  exact .bind keeps_getShell fun sh => keeps_assignAll out _ _ _

theorem keeps_setIgnoring (pairs : List (Text × Text)) :
    Keeps (always P) (setIgnoring pairs : ShellM W Unit) := by
  induction pairs with
  | nil => exact .pure _
  | cons pair pairs ih => exact .bind (keeps_setShell _ _) fun _ => ih

theorem keeps_unsetIgnoring (name : Text) : Keeps (always P) (unsetIgnoring name : ShellM W Unit) :=
  .bind (keeps_tryVars fun _ _ h => scopes_unset h) fun _ => .pure _

theorem keeps_getoptsLetter (optstring name : Text) (argv arg_chars : List Text)
    (optind optpos : Nat) :
    Keeps (always P) (getoptsLetter out optstring name argv arg_chars optind optpos) := by
  unfold getoptsLetter
  dsimp only
  split
  · refine .bind (keeps_setIgnoring _) fun _ => .ite (fun _ => ?_) fun _ => ?_
    · refine .ite (fun _ => .bind (keeps_setIgnoring _) fun _ => .pure _) fun _ =>
        .ite (fun _ => .bind (keeps_setIgnoring _) fun _ => .pure _) fun _ => ?_
      exact .bind (keeps_errMsg out _) fun _ => .bind (keeps_setIgnoring _) fun _ => .pure _
    · exact .bind (keeps_unsetIgnoring _) fun _ => .bind (keeps_setIgnoring _) fun _ => .pure _
  · refine .ite (fun _ => .bind (keeps_setIgnoring _) fun _ => ?_) fun _ =>
      .bind (keeps_errMsg out _) fun _ => ?_
    · exact .bind (keeps_setIgnoring _) fun _ => .pure _
    · exact .bind (keeps_setIgnoring _) fun _ => .pure _

theorem keeps_builtinGetopts (k : Nat) (args : List Text) :
    Keeps (always P) (builtinGetopts out k args) := by
  have hdone (name : Text) : Keeps (always P)
      (do setIgnoring [(name, ['?'])]; return ExitStatus.FAILURE : ShellM W ExitStatus) :=
    .bind (keeps_setIgnoring _) fun _ => .pure _
  induction k with
  | zero => exact .diverge
  | succ k ih =>
    rw [builtinGetopts]
    split
    · refine .bind keeps_getShell fun sh => ?_
      dsimp only
      split
      · exact hdone _
      · refine .ite (fun _ => ?_) fun _ => .ite (fun _ => ?_) fun _ =>
          keeps_getoptsLetter out _ _ _ _ _ _
        · exact hdone _
        · exact .bind (keeps_setIgnoring _) fun _ => ih
    · exact .bind (keeps_errMsg out _) fun _ => .pure _

end Ish.Epsh.Plain
