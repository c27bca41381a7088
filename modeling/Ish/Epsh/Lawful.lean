import Ish.Epsh.PlainBuiltins
import Ish.Epsh.Eval

/-!
# Relations that evaluation keeps

What a relation between the machines before and after has to allow for, construct
by construct, to hold of every evaluation of a command; and that it then does. Three
relations go together: `P` for plain computations, `R` for evaluation, which also
depends on how it stops, and `C` for all that a child does.
-/

namespace Ish.Epsh

open Ish.Lib Plain
open Process (Keeps Handles Sequential always)

variable {W : Type}

/-- Steps that only say what a simple command does. -/
def Step.isNeutral : Step → Bool
  | .begins _ | .accepts _ | .runs .. => true
  | _ => false

/-- A plain relation that also allows for every step of a simple command. -/
class Neutral (P : Machine W → Machine W → Prop) : Prop extends Plain P where
  steps : ∀ m step, step.isNeutral = true → P m (m.note step)

/-- What `R` has to allow for, apart from simple commands. -/
structure Constructs (out : Outside W) (P C : Machine W → Machine W → Prop)
    (R : Ending ExitStatus ShellError Unit → Machine W → Machine W → Prop) : Prop where
  plain : ∀ m t, P m t → R (.ok ()) m t
  child : ∀ m t, P m t → C m t
  child_after : ∀ m t u, P m t → C t u → C m u
  forgets : ∀ e m t, e.isExit = false → R (.error e) m t → R (.ok ()) m t
  restores : ∀ e m t u, R e m t → Quiet t u → R e m u
  simple : ∀ x : ShellM W ExitStatus, Keeps R x → Keeps R (within .simple x)
  condition : ∀ x : ShellM W ExitStatus, Keeps R x → Keeps R (evalCondition x)
  tested : ∀ bang (x : ShellM W ExitStatus), Keeps R x → Keeps R (withTested bang x)
  placement : ∀ f (x : ShellM W ExitStatus), Keeps R x → Keeps R (withPlacement f x)
  loop : ∀ rounds : ShellM W LoopEnd,
    Keeps R (rounds >>= fun e => Process.ofExcept e.result) → Keeps R (inLoop out rounds)
  call : ∀ args (x : ShellM W (Except ShellError ExitStatus)),
    Keeps R (x >>= Process.ofExcept) → Keeps R (inCall args x)
  leaf : ∀ cmd status, Keeps R (checkStatus cmd status : ShellM W ExitStatus)
  forks : ∀ kind (bodies : List (ShellM W ExitStatus)),
    (∀ body ∈ bodies, Keeps (always C) body) → Keeps (always P) (fork out kind bodies)
  ends : ∀ eval other runs_exit_trap (x : ShellM W ExitStatus), (∀ cmd, Keeps R (eval cmd)) →
    Keeps R x → Keeps (always C) (evalChild out eval other runs_exit_trap x)

/-- What `R` has to allow for, simple commands included. -/
structure Lawful (out : Outside W) (P C : Machine W → Machine W → Prop)
    (R : Ending ExitStatus ShellError Unit → Machine W → Machine W → Prop) : Prop
    extends Constructs out P C R where
  command : ∀ eval n assigns args redirs span, (∀ cmd, Keeps R (eval cmd)) →
    Keeps R (evalSimple out eval n assigns args redirs span)

instance : IsPreorder (Machine W) Quiet where
  refl _ := ⟨rfl, rfl, rfl, rfl⟩
  trans _ _ _ hst htu := ⟨htu.context.trans hst.context, htu.frames.trans hst.frames,
    htu.history.trans hst.history, htu.others.trans hst.others⟩

/-- A function call turns a `return` into its status and no other error. -/
theorem callResult_error (e : ShellError) :
    (∃ status, e = .Return status) ∨ callResult (.error e) = .error e := by
  cases e with
  | Return status => exact .inl ⟨status, rfl⟩
  | _ => exact .inr rfl

/-- What `break` and `continue` raise may stop in a loop; an exit goes through it. -/
theorem roundEnd_error (last_status : ExitStatus) (e : ShellError) :
    e.isExit = false ∨
      ∃ status, e = .Exit status ∧ roundEnd last_status (.error e) = .inr (.left e) := by
  cases e with
  | Exit status => exact .inr ⟨status, rfl, rfl⟩
  | _ => exact .inl rfl

namespace Constructs

variable {out : Outside W} {P C : Machine W → Machine W → Prop}
  {R : Ending ExitStatus ShellError Unit → Machine W → Machine W → Prop} {α β : Type}

section

variable (h : Constructs out P C R)
include h

theorem child_bind {x : ShellM W α} {f : α → ShellM W β} (hx : Keeps (always P) x)
    (hf : ∀ a, Keeps (always C) (f a)) : Keeps (always C) (x >>= f) := by
  intro m e t hrun
  rw [Process.bind_run] at hrun
  split at hrun
  · next a _ hr => exact h.child_after _ _ _ (hx _ _ _ hr) (hf a _ _ _ hrun)
  · next hr =>
    cases hrun
    exact h.child _ _ (hx _ _ _ hr)
  · next hr =>
    cases hrun
    exact h.child _ _ (hx _ _ _ hr)
  · cases hrun

theorem child_of_plain {x : ShellM W α} (hx : Keeps (always P) x) : Keeps (always C) x :=
  hx.weaken fun _ m t hmt => h.child m t hmt

theorem handles_outside {e} (f : W → α × W) {g : α → ShellM W β}
    (hg : ∀ a, Handles R e (g a)) : Handles R e (outside f >>= g) := by
  refine .bind (Q := Quiet) (fun m ending t ht => ?_) (fun m t u => h.restores _ m t u) hg
  cases ht
  exact ⟨⟨_, rfl⟩, rfl, rfl, rfl, rfl⟩

/-! ## Children -/

variable [Plain P] {eval : Command → ShellM W ExitStatus} (heval : ∀ cmd, Keeps R (eval cmd)) (n : Nat)

omit h in
theorem keeps_waitForked (children : List (Forked W)) :
    Keeps (always P) (waitForked out children) := by
  unfold waitForked
  refine .bind (keeps_outside _) fun waited => ?_
  split
  · exact .ofExcept _
  · exact .fail _

theorem keeps_childBody {kind} {body : ShellM W ExitStatus}
    (hbody : Keeps (always C) body) : Keeps (always C) (childBody out kind body) :=
  h.child_bind (keeps_outside _) fun _ =>
    .ite (fun _ => hbody) fun _ => h.child_of_plain (.pure _)

include heval

theorem keeps_substitutionChild (cmd : Command) :
    Keeps (always C) (substitutionChild out eval cmd) :=
  h.keeps_childBody (h.child_bind (keeps_setTrap _ _) fun _ =>
    h.ends eval _ _ _ heval (h.placement _ _ (heval cmd)))

theorem keeps_commandSubst (cmd : Command) : Keeps (always P) (commandSubst out eval cmd) := by
  unfold commandSubst
  refine .bind (h.forks _ _ fun body hbody => ?_) fun children =>
    .bind (keeps_outside _) fun raw => .bind (.attempt (keeps_waitForked _)) fun waited =>
    .bind (.ofExcept _) fun raw_output => .bind (.ofExcept _) fun status =>
    .bind (keeps_modifyShell fun _ => rfl) fun _ => .pure _
  rw [List.mem_singleton.mp hbody]
  exact h.keeps_substitutionChild heval cmd

theorem keeps_setup (redirs : List Redir) :
    Keeps (always P) (setupRedirections out (commandSubst out eval) n redirs) :=
  keeps_setupRedirections out (h.keeps_commandSubst heval) n redirs

theorem keeps_string (word : Word) :
    Keeps (always P) (expandString out (commandSubst out eval) n word) :=
  keeps_expandString out (h.keeps_commandSubst heval) n word

theorem keeps_subshellChild (kind : ChildKind) (body : Command) (redirs : List Redir)
    (runs_exit_trap : Bool) :
    Keeps (always C) (subshellChild out eval n kind body redirs runs_exit_trap) := by
  refine h.keeps_childBody (h.child_bind (keeps_setTrap _ _) fun _ =>
    h.child_bind (.attempt (h.keeps_setup heval n redirs)) fun result => ?_)
  cases result with
  | error e =>
    exact h.child_of_plain (.bind (keeps_reportChildRefusal e) fun _ =>
      .bind (keeps_errMsg out _) fun _ => .pure _)
  | ok _ => exact h.ends eval _ _ _ heval (heval body)

theorem keeps_evalInSubshell (body : Command) (redirs : List Redir) :
    Keeps (always P) (evalInSubshell out eval n body redirs) := by
  refine .bind (h.forks _ _ fun child hchild => ?_) fun children => keeps_waitForked children
  rw [List.mem_singleton.mp hchild]
  exact h.keeps_subshellChild heval n _ body redirs true

theorem keeps_evalBackground (cmd : Command) (redirs : List Redir) :
    Keeps (always P) (evalBackground out eval n cmd redirs) := by
  refine .bind (h.forks _ _ fun child hchild => ?_) fun children =>
    .bind (keeps_setEnded fun ended => ended ++ _) fun _ =>
    .bind (keeps_modifyShell fun _ => rfl) fun _ => .pure _
  rw [List.mem_singleton.mp hchild]
  exact h.keeps_subshellChild heval n _ cmd redirs false

theorem keeps_memberChild (cmd : Command) : Keeps (always C) (memberChild out eval cmd) :=
  h.keeps_childBody (h.child_bind (keeps_modifyShell fun _ => rfl) fun _ =>
    h.ends eval _ _ _ heval (heval cmd))

/-! ## Functions and words -/

theorem keeps_assignLocals (assigns : List Assignment) :
    Keeps (always P) (assignLocals out eval n assigns) := by
  induction assigns with
  | nil => exact .pure _
  | cons assign assigns ih =>
    exact .bind (h.keeps_string heval n _) fun _ => .bind (keeps_assigns _ _) fun _ =>
      .bind (keeps_makeLocal _) fun _ => .bind (keeps_setShell _ _) fun _ => ih

theorem keeps_expandArgs (args : List Word) : Keeps (always P) (expandArgs out eval n args) := by
  induction args with
  | nil => exact .pure _
  | cons arg args ih =>
    exact .bind (keeps_expandFields out (h.keeps_commandSubst heval) n arg) fun _ =>
      .bind ih fun _ => .pure _

theorem keeps_matchesArm (expanded : Text) (patterns : List Word) :
    Keeps (always P) (matchesArm out eval n expanded patterns) := by
  induction patterns with
  | nil => exact .pure _
  | cons pattern patterns ih =>
    exact .bind (keeps_expandPattern out (h.keeps_commandSubst heval) n _) fun _ =>
      .ite (fun _ => .pure _) fun _ => ih

end

/-! ## Redirections -/

section

variable [Sequential R] (h : Constructs out P C R)
include h

theorem of_plain {x : ShellM W α} (hx : Keeps (always P) x) : Keeps R x :=
  hx.weaken fun e m t hmt => Sequential.any e m t (h.plain m t hmt)

theorem handles_cleanup (e : ShellError) (cleanup : Except IoError Unit) :
    Handles R e (combineRedirectionCleanup out (.error e) cleanup : ShellM W α) := by
  have hfail : Handles R e (Process.fail e : ShellM W α) := .fail
  cases cleanup with
  | ok _ => exact hfail
  | error msg =>
    unfold combineRedirectionCleanup
    dsimp only
    split_ifs with houtlives
    · unfold errMsg writeErr
      exact h.handles_outside _ fun _ => .fail
    · refine .caught (h.forgets e · · ?_) (.fail _)
      cases e with
      | Exit _ => exact absurd rfl houtlives
      | _ => rfl

theorem handles_finish (e : ShellError) (saved : List Int) :
    Handles R e (finishRedirections out (.error e) saved : ShellM W α) :=
  h.handles_outside _ fun cleanup => h.handles_cleanup e cleanup

theorem handles_finishSaved (e : ShellError) (saved : List Int) :
    Handles R e (finishSavedRedirections out (.error e) saved : ShellM W α) :=
  h.handles_outside _ fun cleanup => h.handles_cleanup e cleanup

variable [Plain P]

theorem keeps_finish {x : ShellM W α} (hx : Keeps R x) (saved : List Int) :
    Keeps R (Process.attempt x >>= fun result => finishRedirections out result saved) :=
  .attempt_bind hx (fun _ => h.of_plain (keeps_finishRedirections out _ saved))
    fun e => h.handles_finish e saved

theorem keeps_finishSaved {x : ShellM W α} (hx : Keeps R x) (saved : List Int) :
    Keeps R (Process.attempt x >>= fun result => finishSavedRedirections out result saved) :=
  .attempt_bind hx (fun _ => h.of_plain (keeps_finishSavedRedirections out _ saved))
    fun e => h.handles_finishSaved e saved

/-! ## Compound commands -/

variable {eval : Command → ShellM W ExitStatus} (heval : ∀ cmd, Keeps R (eval cmd)) (n : Nat)
include heval

omit [Plain P] in
theorem keeps_round (body : Command) (last_status : ExitStatus)
    {again : ExitStatus → ShellM W ExitStatus} (hagain : ∀ status, Keeps R (again status))
    {next} (hnext : ∀ result, next result = Sum.elim again
      (fun loop_end => Process.ofExcept loop_end.result) (roundEnd last_status result)) :
    Keeps R (Process.attempt (eval body) >>= next) := by
  have hkeeps result : Keeps R (next result) := by
    rw [hnext]
    cases roundEnd last_status result with
    | inl status => exact hagain status
    | inr loop_end => exact .ofExcept _
  refine .attempt_bind (heval body) (fun status => hkeeps _) fun e => ?_
  rcases roundEnd_error last_status e with he | ⟨status, rfl, hround⟩
  · exact .caught (h.forgets e · · he) (hkeeps _)
  · rw [hnext, hround]
    exact .fail

theorem keeps_whileRounds (until_ : Bool) (cond body : Command) (k : Nat)
    (last_status : ExitStatus) :
    Keeps R (whileRounds out eval until_ cond body k last_status >>= fun e =>
      Process.ofExcept e.result) := by
  induction k generalizing last_status with
  | zero => exact .bind .diverge fun _ => .ofExcept _
  | succ k ih =>
    rw [whileRounds, bind_assoc]
    refine .bind (h.of_plain (keeps_checkCancel out)) fun _ => ?_
    rw [bind_assoc]
    refine .bind (h.condition _ (heval cond)) fun cond_status => ?_
    split_ifs
    · exact .bind (.pure _) fun _ => .ofExcept _
    · rw [bind_assoc]
      refine h.keeps_round heval body last_status ih fun result => ?_
      cases roundEnd last_status result <;> rfl

theorem keeps_forRounds (var : Text) (body : Command) (values : List Text)
    (last_status : ExitStatus) :
    Keeps R (forRounds out eval var body values last_status >>= fun e =>
      Process.ofExcept e.result) := by
  induction values generalizing last_status with
  | nil => exact .bind (.pure _) fun _ => .ofExcept _
  | cons value values ih =>
    rw [forRounds, bind_assoc]
    refine .bind (h.of_plain (keeps_checkCancel out)) fun _ => ?_
    rw [bind_assoc]
    refine .bind (h.of_plain (keeps_setShell var value)) fun result => ?_
    cases result with
    | error msg => exact .bind (.pure _) fun _ => .ofExcept _
    | ok _ =>
      dsimp only
      rw [bind_assoc]
      refine h.keeps_round heval body last_status ih fun result => ?_
      cases roundEnd last_status result <;> rfl

theorem keeps_evalPipeline (commands : List Command) :
    Keeps R (evalPipeline out eval commands) := by
  refine .bind (h.of_plain (keeps_ensureTerminalDescriptor out)) fun _ => ?_
  split
  · exact heval _
  · refine h.of_plain (.bind (h.forks _ _ fun child hchild => ?_) fun children =>
      .bind (keeps_outside _) fun waited => .bind keeps_getShell fun _ =>
      .ofExcept _)
    obtain ⟨cmd, -, rfl⟩ := List.mem_map.mp hchild
    exact h.keeps_memberChild heval cmd

theorem keeps_evalArms (expanded : Text) (arms : List CaseArm) :
    Keeps R (evalArms out eval n expanded arms) := by
  induction arms with
  | nil => exact .pure _
  | cons arm arms ih =>
    refine .bind (h.of_plain (h.keeps_matchesArm heval n _ _)) fun found =>
      .ite (fun _ => ?_) fun _ => ih
    split
    · exact heval _
    · exact .pure _

end

end Constructs

/-! ## Evaluation -/

namespace Lawful

variable {out : Outside W} {P C : Machine W → Machine W → Prop}
  {R : Ending ExitStatus ShellError Unit → Machine W → Machine W → Prop}
  [Plain P] [Sequential R] (h : Lawful out P C R)
include h

theorem keeps_evalCommandInner {eval : Command → ShellM W ExitStatus}
    (heval : ∀ cmd, Keeps R (eval cmd)) (n : Nat) (cmd : Command) :
    Keeps R (evalCommandInner out eval n cmd) := by
  have hcondition (cmd : Command) : Keeps R (evalCondition (eval cmd)) :=
    h.condition _ (heval cmd)
  unfold evalCommandInner resetEvExit
  refine .bind (h.of_plain (.ite (fun _ => .pure _) fun _ => keeps_modifyShell fun _ => rfl))
    fun _ => ?_
  cases cmd with
  | Simple assigns args redirs span => exact h.command eval n _ _ _ _ heval
  | Pipeline commands bang span =>
    exact .bind (h.tested _ _ (h.placement _ _ (h.keeps_evalPipeline heval commands)))
      fun _ => .pure _
  | And left right =>
    exact .bind (hcondition left) fun _ => .ite (fun _ => heval right) fun _ => .pure _
  | Or left right =>
    exact .bind (hcondition left) fun _ => .ite (fun _ => .pure _) fun _ => heval right
  | Sequence left right =>
    exact .bind (heval left) fun _ =>
      .bind (h.of_plain (keeps_setExitStatus _)) fun _ => heval right
  | Subshell body redirs => exact h.of_plain (h.keeps_evalInSubshell heval n body redirs)
  | BraceGroup body redirs =>
    exact .bind (h.of_plain (h.keeps_setup heval n redirs)) fun saved =>
      h.keeps_finish (heval body) saved
  | If cond then_part else_part =>
    refine .bind (hcondition cond) fun _ => .ite (fun _ => heval then_part) fun _ => ?_
    cases else_part with
    | none => exact .pure _
    | some else_part => exact heval else_part
  | While cond body => exact h.loop _ (h.keeps_whileRounds heval false cond body n _)
  | Until cond body => exact h.loop _ (h.keeps_whileRounds heval true cond body n _)
  | For var words body =>
    refine .bind (h.of_plain ?_) fun values => h.loop _ (h.keeps_forRounds heval var body values _)
    cases words with
    | none => exact .bind keeps_getShell fun _ => .pure _
    | some words => exact h.keeps_expandArgs heval n words
  | Case word arms =>
    exact .bind (h.of_plain (h.keeps_string heval n word)) fun _ =>
      h.keeps_evalArms heval n _ arms
  | FuncDef name body =>
    exact .bind (h.of_plain (keeps_modifyShell fun _ => rfl)) fun _ => .pure _
  | Not cmd => exact .bind (h.tested true _ (heval cmd)) fun _ => .pure _
  | Background cmd redirs => exact h.of_plain (h.keeps_evalBackground heval n cmd redirs)

theorem keeps_evalCommandWith {eval : Command → ShellM W ExitStatus}
    (heval : ∀ cmd, Keeps R (eval cmd)) (n : Nat) (cmd : Command) :
    Keeps R (evalCommandWith out eval n cmd) := by
  unfold evalCommandWith
  split
  · exact .fail _
  · refine .bind (h.of_plain (keeps_checkCancel out)) fun _ =>
      .bind (h.of_plain keeps_getShell) fun sh => .ite (fun _ => .pure _) fun _ => ?_
    exact .bind (h.keeps_evalCommandInner heval n _) fun status => h.leaf _ status

theorem keeps_evalCommand (n : Nat) (cmd : Command) : Keeps R (evalCommand out n cmd) := by
  induction n generalizing cmd with
  | zero => exact .diverge
  | succ n ih => exact h.keeps_evalCommandWith ih n cmd

end Lawful

end Ish.Epsh
