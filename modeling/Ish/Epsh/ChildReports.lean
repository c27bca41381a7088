import Ish.Epsh.Constructs

/-!
# How a child reports its command's end

A command is evaluated by a child in a subshell, as the last member of a pipeline, in the
background and in a command substitution. The four children share no code behind the
evaluation; `reportsAlike_iff` says which ends of a command they report alike.
-/

namespace Ish.Epsh

open Ish.Lib
open Process (attempt_run bind_ok)

variable {W : Type}

/-! ## The environments -/

/-- Where a child evaluates a command. -/
inductive Environment where
  | subshell
  | member
  | background
  | substitution
deriving DecidableEq

/-- The outcomes that belong to a construct around the child. -/
def isJump : Except ShellError ExitStatus → Bool
  | .error (.Return _) | .error (.Break _) | .error (.Continue _) => true
  | _ => false

/-- What a child makes of a command's end. -/
def reportedStatus (other : ExitStatus) : Except ShellError ExitStatus → ExitStatus
  | .ok status | .error (.Exit status) => status
  | .error e => if e.isRefusal then .MISUSE else other

namespace Environment

def kind : Environment → ChildKind
  | subshell => .Subshell
  | member => .Pipeline
  | background => .Background
  | substitution => .CommandSubst

/-- The status of the environment for an error that is neither an exit nor a refusal. -/
def other : Environment → ExitStatus
  | substitution => .MISUSE
  | _ => .FAILURE

def runsExitTrap : Environment → Bool
  | subshell | substitution => true
  | member | background => false

def reported (env : Environment) (r : Except ShellError ExitStatus) : ExitStatus :=
  reportedStatus env.other r

variable (out : Outside W) (n : Nat) (c : Command)

/-- The child that evaluates the command. -/
def child : Environment → ShellM W ExitStatus
  | subshell => subshellChild out (evalCommand out n) n .Subshell c [] true
  | member => memberChild out (evalCommand out n) c
  | background => subshellChild out (evalCommand out n) n .Background c [] false
  | substitution => substitutionChild out (evalCommand out n) c

/-- What the child does before it ends. -/
def evaluation : Environment → ShellM W ExitStatus
  | subshell | background => do
    setTrap "EXIT".toList none
    evalCommand out n c
  | member => do
    modifyShell fun sh => { sh with ev_exit := true }
    evalCommand out n c
  | substitution => do
    setTrap "EXIT".toList none
    evalInCommandSubstitution (evalCommand out n) c

/-- In the child that `m` forks the evaluation ends with `r`, in `t`. -/
structure Ends (env : Environment) (m : Machine W) (w : W) (r : Except ShellError ExitStatus)
    (t : Machine W) : Prop where
  entered : (out.enter env.kind w).1 = true
  evaluated : Process.attempt (env.evaluation out n c)
    { m.child env.kind w with world := (out.enter env.kind w).2 } = some (.ok r, t)

/-- What is left to do at the end of the evaluation. -/
def epilogue (env : Environment) (r : Except ShellError ExitStatus) : ShellM W ExitStatus := do
  let status ← childStatus out env.other r
  noteEnd status
  if env.runsExitTrap then runExitTrap out (evalCommand out n)
  return status

/-- The action the child runs at its end leaves the environment with a status: it returns
where that is the status the child reports, or ends the process with it. -/
def ActionLeaves (env : Environment) (r : Except ShellError ExitStatus) (t : Machine W)
    (status : ExitStatus) : Prop :=
  ∃ u e v, (childStatus out env.other r >>= noteEnd) t = some (.ok (), u) ∧
    (runExitTrap out (evalCommand out n) >>= fun _ => pure (env.reported r)) u = some (e, v) ∧
    childExit e = status

end Environment

variable {out : Outside W} {n : Nat} {c : Command} {env : Environment} {m t : Machine W} {w : W}
  {r : Except ShellError ExitStatus}

/-! ## The children -/

theorem setupRedirections_nil {subst}
    (hforked : m.shell.in_forked_child = true) :
    setupRedirections out subst n [] m = some (.ok [], m) := by
  have hpreflight : preflightRedirects out [] m = some (.ok (), m) := by
    unfold preflightRedirects
    cases out.host.redirect_open_handler <;> rfl
  have hterminal : ensureTerminalDescriptor out m = some (.ok (), m) := by
    unfold ensureTerminalDescriptor
    rw [bind_ok (a := m.shell) (t := m) rfl, hforked, Bool.not_true, Bool.and_false]
    rfl
  unfold setupRedirections
  rw [bind_ok hpreflight, bind_ok hterminal]
  rfl

theorem childStatus_reports (other : ExitStatus) (r : Except ShellError ExitStatus)
    (m : Machine W) : ∃ u, childStatus out other r m = some (.ok (reportedStatus other r), u) := by
  cases r with
  | ok status => exact ⟨m, rfl⟩
  | error e =>
    cases e with
    | Exit status => exact ⟨m, rfl⟩
    | _ => exact ⟨_, rfl⟩

namespace Environment

theorem Ends.evalChild_run {runs_exit_trap : Bool} {x : ShellM W ExitStatus}
    {prelude : ShellM W Unit} {s m' : Machine W} (hprelude : prelude s = some (.ok (), m'))
    (h : Process.attempt (prelude >>= fun _ => x) s = some (.ok r, t)) (other : ExitStatus) :
    evalChild out (evalCommand out n) other runs_exit_trap x m' =
      (childStatus out other r >>= fun status => noteEnd status >>= fun _ =>
        (if runs_exit_trap then runExitTrap out (evalCommand out n) else pure ()) >>= fun _ =>
          pure status) t := by
  rw [attempt_run, bind_ok hprelude, ← attempt_run] at h
  unfold evalChild
  rw [bind_ok h]
  cases runs_exit_trap <;> rfl

/-- **Behind the evaluation a child does nothing but its epilogue.** -/
theorem Ends.child_run (h : env.Ends out n c m w r t) :
    env.child out n c (m.child env.kind w) = env.epilogue out n r t := by
  have hbody (body : ShellM W ExitStatus) : childBody out env.kind body (m.child env.kind w) =
      body { m.child env.kind w with world := (out.enter env.kind w).2 } := by
    have henter : outside (out.enter env.kind) (m.child env.kind w) =
        some (.ok true, { m.child env.kind w with world := (out.enter env.kind w).2 }) := by
      rw [← h.entered]
      rfl
    unfold childBody
    rw [bind_ok henter]
    rfl
  have hevaluated := h.evaluated
  cases env with
  | member | substitution =>
    refine (hbody _).trans ?_
    rw [bind_ok (a := ()) rfl]
    exact evalChild_run rfl hevaluated _
  | _ =>
    refine (hbody _).trans ?_
    rw [bind_ok (a := ()) rfl,
      bind_ok (a := .ok []) (by rw [attempt_run, setupRedirections_nil rfl])]
    exact evalChild_run rfl hevaluated _

/-- The child ends with the status its epilogue reports, or as the action does. -/
theorem Ends.leaves_iff (h : env.Ends out n c m w r t) (status : ExitStatus) :
    (∃ e u, env.child out n c (m.child env.kind w) = some (e, u) ∧ childExit e = status) ↔
      if env.runsExitTrap then env.ActionLeaves out n r t status
      else env.reported r = status := by
  obtain ⟨u, hu⟩ := childStatus_reports env.other r t
  rw [h.child_run, epilogue, bind_ok hu]
  have hnoted : (childStatus out env.other r >>= noteEnd) t =
      some (.ok (), u.note (.leaves (env.reported r) (u.shell.traps.lookup "EXIT".toList))) := by
    rw [bind_ok hu]
    rfl
  have hnote : noteEnd (reportedStatus env.other r) u =
      some (.ok (), u.note (.leaves (env.reported r) (u.shell.traps.lookup "EXIT".toList))) := rfl
  rw [bind_ok hnote]
  by_cases hruns : env.runsExitTrap = true
  · rw [if_pos hruns, if_pos hruns]
    constructor
    · rintro ⟨e, v, hrun, hexit⟩
      exact ⟨_, e, v, hnoted, hrun, hexit⟩
    · rintro ⟨_, e, v, hsame, hrun, hexit⟩
      rw [hnoted] at hsame
      cases hsame
      exact ⟨e, v, hrun, hexit⟩
  · rw [if_neg hruns, if_neg hruns]
    constructor
    · rintro ⟨_, _, hrun, hexit⟩
      cases hrun
      exact hexit
    · exact fun hstatus => ⟨_, _, rfl, hstatus⟩

end Environment

/-! ## The reports -/

/-- The status the end of a command asks for, unless it is an error that has none of its own. -/
def prescribed : Except ShellError ExitStatus → Option ExitStatus
  | .ok status | .error (.Exit status) | .error (.Return status) => some status
  | .error (.Break _) | .error (.Continue _) => some .SUCCESS
  | .error _ => none

/-- The four children end with one status; where one is prescribed it is that one, and
nothing is printed. -/
def ReportsAlike (out : Outside W) (n : Nat) (c : Command) (m : Machine W) (w : Environment → W)
    (r : Except ShellError ExitStatus) (t : Environment → Machine W) : Prop :=
  ∃ status, (∀ env : Environment, ∃ e u, env.child out n c (m.child env.kind (w env)) =
      some (e, u) ∧ childExit e = status) ∧
    ∀ s, prescribed r = some s → s = status ∧
      ∀ env : Environment, childStatus out env.other r (t env) = some (.ok s, t env)

/-- The evaluation ends with a status, with `exit` or with a refusal. -/
def hasCommonReport : Except ShellError ExitStatus → Bool
  | .ok _ => true
  | .error e => e.isExit || e.isRefusal

theorem reported_eq_member_iff (r : Except ShellError ExitStatus) :
    (∀ env : Environment, env.reported r = Environment.member.reported r) ↔
      hasCommonReport r = true := by
  constructor
  · intro h
    have hsubst := h .substitution
    cases r with
    | ok status => rfl
    | error e => cases e <;> first | rfl | cases hsubst
  · intro h env
    cases r with
    | ok status => rfl
    | error e => cases e <;> first | rfl | cases h

theorem not_common_of_jump (h : isJump r = true) : hasCommonReport r = false := by
  cases r with
  | ok status => cases h
  | error e => cases e <;> first | rfl | cases h

end Ish.Epsh
