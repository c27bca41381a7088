import Ish.Epsh.Errexit

/-!
# `set -e` over whole runs

Children and trap actions, the end of a process, and programs. A trap action goes on
after the end of the shell, so it only has to leave what was checked before alone.
-/

namespace Ish.Epsh

open Ish.Lib List
open Process (Keeps Sequential always attempt_bind_run bind_ok bind_run)

variable {W : Type} {m t u : Machine W}

/-! ## Processes -/

theorem runChildren_mem
    (h : runChildren kind started m i bodies = some children) (c : Forked W) (hc : c ∈ children) :
    ∃ body ∈ bodies, ∃ w e, body (m.child kind w) = some (e, c.machine) := by
  induction bodies generalizing i children with
  | nil =>
    rw [runChildren] at h
    rw [← Option.some.inj h] at hc
    cases hc
  | cons body bodies ih =>
    rw [runChildren] at h
    cases hbody : body (m.child kind (started i).2) with
    | none =>
      rw [hbody] at h
      cases h
    | some p =>
      obtain ⟨e, t⟩ := p
      rw [hbody] at h
      obtain ⟨rest, hrest, hchildren⟩ := Option.map_eq_some_iff.mp h
      rw [← hchildren] at hc
      rcases mem_cons.mp hc with hc | hc
      · have hmachine : c.machine = t := congrArg Forked.machine hc
        exact ⟨body, mem_cons_self, (started i).2, e, hmachine ▸ hbody⟩
      · obtain ⟨b, hb, hrun⟩ := ih hrest hc
        exact ⟨b, mem_cons_of_mem _ hb, hrun⟩

variable (out : Outside W)

theorem checks_fork (kind : ChildKind) (bodies : List (ShellM W ExitStatus))
    (hbodies : ∀ body ∈ bodies, Keeps (always Settles) body) :
    Keeps (always Tame) (fork out kind bodies) := by
  intro m e t h
  unfold fork at h
  split at h
  · cases h
    exact .same rfl rfl rfl rfl
  · rename_i started w hstart
    obtain ⟨children, hchildren, hdone⟩ := Option.map_eq_some_iff.mp h
    cases hdone
    refine ⟨rfl, prefix_refl _, ?_, id, fun _ _ => id⟩
    intro hm ha
    refine ⟨⟨hm.rule, ?_⟩, hm.flag⟩
    intro history hmem
    rcases mem_append.mp hmem with hmem | hmem
    · exact hm.others history hmem
    obtain ⟨c, hc, hmem⟩ := mem_flatMap.mp hmem
    obtain ⟨body, hbody, w', e', hrun⟩ := runChildren_mem hchildren c hc
    have hsettles : Settles (m.child kind w') c.machine := hbodies body hbody _ _ _ hrun
    have hfaithful : Faithful (m.child kind w') :=
      ⟨⟨hm.rule, nofun⟩, hm.flag.imp id fun hflag => by simpa [Machine.child] using hflag⟩
    have halive : Alive (m.child kind w') :=
      ha.imp id fun hs => ⟨by simpa [Machine.child, inTrap, Frame.isTrap] using hs.1, hs.2⟩
    have hsound := hsettles.sound hfaithful halive
    rcases mem_cons.mp hmem with rfl | hmem
    · exact ⟨hsound.rule, hsettles.settled halive⟩
    · exact hsound.others history hmem

/-- What a trap action preserves, even after the end of the shell. -/
structure Undisturbed (e : Ending ExitStatus ShellError Unit) (m t : Machine W) : Prop where
  frames : t.frames = m.frames
  grows : m.history <+: t.history
  sound : Faithful m → Settled m.history → Sound t
  faithful : lives e → Faithful m → Settled m.history → Faithful t
  running : Running m.history → Running t.history
  stopped : ∀ status, StoppedWith status m.history → StoppedWith status t.history

namespace Undisturbed

variable {e : Ending ExitStatus ShellError Unit}

theorem settled (h : Undisturbed e m t) (hm : Settled m.history) : Settled t.history :=
  hm.imp h.running fun ⟨status, hs⟩ => ⟨status, h.stopped status hs⟩

theorem tame (h : Undisturbed e m t) (hlives : lives e) : Tame m t where
  frames := h.frames
  grows := h.grows
  faithful hm ha := h.faithful hlives hm (ha.imp id fun hs => hs.2)
  running := h.running
  stopped _ := h.stopped

theorem of_quiet (h : Quiet m t) : Undisturbed e m t := by
  have htame := Plain.quiet (P := Tame) m t h
  have hfaithful (hm : Faithful m) : Faithful t := by
    have hcontext : t.shell.tested = m.shell.tested := congrArg (·.2.1) h.context
    refine ⟨⟨h.history ▸ hm.rule, h.others ▸ hm.others⟩, ?_⟩
    rw [h.history, hcontext, h.frames]
    exact hm.flag
  exact ⟨h.frames, htame.grows, fun hm _ => (hfaithful hm).toSound, fun _ hm _ => hfaithful hm,
    htame.running, fun status hs => h.history ▸ hs⟩

theorem of_note (hchecked : ∀ status errexit bang stopped,
    step ≠ .checked status errexit bang stopped)
    (hfollows : ∀ status, StoppedWith status m.history → (Entry.mk m.frames step).followsStop status) :
    Undisturbed e m (m.note step) := by
  have htame := Tame.note (m := m) hchecked
  have hfaithful (hm : Faithful m) : Faithful (m.note step) :=
    ⟨⟨hm.rule.append fun _ status errexit bang stopped h =>
      absurd h (hchecked status errexit bang stopped), hm.others⟩,
      hm.flag.imp leftCondition_append id⟩
  exact ⟨rfl, htame.grows, fun hm _ => (hfaithful hm).toSound, fun _ hm _ => hfaithful hm,
    htame.running, fun status hs => hs.append (hfollows status hs)⟩

/-- Into a trap action and out of it. -/
theorem inside (h : Undisturbed e (m.inside (.trap name)) t) :
    Undisturbed e m (t.backIn m.frames) := by
  have hmem : Frame.condition ∈ (m.inside (.trap name)).frames ↔ .condition ∈ m.frames := by
    simp [Machine.inside]
  have hin (hm : Faithful m) : Faithful (m.inside (.trap name)) :=
    ⟨⟨hm.rule, hm.others⟩, hm.flag.imp id fun hflag => hflag.trans hmem.symm⟩
  refine ⟨rfl, h.grows, fun hm hs => ?_, fun hlives hm hs => ?_, h.running, h.stopped⟩
  · have ht := h.sound (hin hm) hs
    exact ⟨ht.rule, ht.others⟩
  · have ht := h.faithful hlives (hin hm) hs
    refine ⟨⟨ht.rule, ht.others⟩, ht.flag.imp id fun hflag => ?_⟩
    rw [h.frames] at hflag
    exact hflag.trans hmem

end Undisturbed

instance : Sequential (Undisturbed (W := W)) where
  refl _ := .of_quiet ⟨rfl, rfl, rfl, rfl⟩
  any _ _ _ h := ⟨h.frames, h.grows, h.sound, fun _ => h.faithful trivial, h.running, h.stopped⟩
  seq _ _ _ _ hmt htu := {
    frames := htu.frames.trans hmt.frames
    grows := hmt.grows.trans htu.grows
    sound := fun hm hs => htu.sound (hmt.faithful trivial hm hs) (hmt.settled hs)
    faithful := fun hlives hm hs =>
      htu.faithful hlives (hmt.faithful trivial hm hs) (hmt.settled hs)
    running := fun h => htu.running (hmt.running h)
    stopped := fun status h => htu.stopped status (hmt.stopped status h) }

variable {e : Ending ExitStatus ShellError Unit}

theorem Checks.undisturbed (h : Checks e m t)
    (htrap : inTrap m.frames = true) : Undisturbed e m t := by
  have halive (hs : Settled m.history) : Alive m := hs.imp id fun hs => ⟨htrap, hs⟩
  refine ⟨h.frames, h.grows, fun hm hs => h.sound hm (halive hs),
    fun hlives hm hs => h.faithful hlives hm (halive hs), ?_, h.stopped htrap⟩
  intro hr
  rcases h.running hr with hr | ⟨hfalse, -⟩
  · exact hr
  · rw [htrap] at hfalse
    cases hfalse

/-- Computations that only ask the outside and change what no check depends on. -/
theorem undisturbed_outside {α : Type} (f : W → α × W) :
    Keeps Undisturbed (outside f : ShellM W α) := by
  intro m e t h
  cases h
  exact .of_quiet ⟨rfl, rfl, rfl, rfl⟩

theorem undisturbed_getShell : Keeps Undisturbed (getShell : ShellM W Shell) := by
  intro m e t h
  cases h
  exact .of_quiet ⟨rfl, rfl, rfl, rfl⟩

theorem undisturbed_modifyShell (h : ∀ sh, (f sh).context = sh.context) :
    Keeps Undisturbed (modifyShell f : ShellM W Unit) :=
  .modify fun m => .of_quiet ⟨h m.shell, rfl, rfl, rfl⟩

theorem undisturbed_errMsg (msg : Text) : Keeps Undisturbed (errMsg out msg) := by
  unfold errMsg writeErr
  exact undisturbed_outside _

theorem undisturbed_reportChildRefusal (error : ShellError) :
    Keeps Undisturbed (reportChildRefusal error : ShellM W Unit) := by
  unfold reportChildRefusal
  split
  · exact .modify fun m => .of_quiet ⟨rfl, rfl, rfl, rfl⟩
  · exact .pure _

section

variable (out : Outside W) {eval : Command → ShellM W ExitStatus}
  (heval : ∀ cmd, Keeps Checks (eval cmd))
include heval

theorem undisturbed_evalTrapProgram (commands : List Command) (m : Machine W)
    (htrap : inTrap m.frames = true)
    (h : evalTrapProgram out eval commands m = some (e, t)) : Undisturbed e.void m t := by
  induction commands generalizing m with
  | nil =>
    cases h
    exact .of_quiet ⟨rfl, rfl, rfl, rfl⟩
  | cons command commands ih =>
    rw [evalTrapProgram, attempt_bind_run, part_run] at h
    cases hr : eval command m with
    | none => rw [hr] at h; cases h
    | some p =>
      obtain ⟨ending, u⟩ := p
      rw [hr] at h
      have hu : Undisturbed ending.void m u := (heval command _ _ _ hr).undisturbed htrap
      have htrapu : inTrap u.frames = true := hu.frames ▸ htrap
      cases ending with
      | quit q => cases h; exact hu
      | ok status => exact Sequential.seq (R := Undisturbed) _ _ _ _ hu (ih u htrapu h)
      | error err =>
        have hu' : Undisturbed (.ok ()) m u :=
          ⟨hu.frames, hu.grows, hu.sound, fun _ => hu.faithful trivial, hu.running, hu.stopped⟩
        have hnote : Undisturbed (.ok ()) u (u.note (.broke .trapCommand err)) :=
          .of_note nofun fun _ _ => .inr trivial
        have hnoted := Sequential.seq (R := Undisturbed) _ _ _ _ hu' hnote
        dsimp only at h
        split at h
        · have hreport : Keeps Undisturbed (do
              reportChildRefusal err
              errMsg out ("epsh: ".toList ++ err.display) : ShellM W Unit) :=
            .bind (undisturbed_reportChildRefusal err) fun _ => undisturbed_errMsg out _
          exact Sequential.seq (R := Undisturbed) _ _ _ _ hnoted (hreport _ _ _ h)
        · exact Sequential.seq (R := Undisturbed) _ _ _ _ hnoted (ih _ htrapu h)

theorem undisturbed_runAction (name action : Text) :
    Keeps Undisturbed (runAction out eval name action) := by
  have hrecord (before : ExitStatus) :
      Keeps Undisturbed (do record (.trapped name before (← getShell).exit_status) :
        ShellM W Unit) :=
    .bind undisturbed_getShell fun _ => .modify fun _ => .of_note nofun fun _ _ => .inr trivial
  unfold runAction
  refine .bind undisturbed_getShell fun sh => ?_
  dsimp only
  split
  · rename_i program hparse
    refine .bind ?_ fun _ => hrecord _
    intro m e t h
    rw [within_run] at h
    split at h
    · next hr =>
      cases h
      exact (undisturbed_evalTrapProgram out heval _ _ rfl hr).inside
    · cases h
  · exact .pure _

theorem undisturbed_runExitTrap : Keeps Undisturbed (runExitTrap out eval) := by
  unfold runExitTrap
  refine .bind undisturbed_getShell fun sh => ?_
  split
  · exact .pure _
  · exact .bind (undisturbed_modifyShell fun _ => rfl) fun _ =>
      .bind (undisturbed_runAction out heval _ _) fun _ => undisturbed_modifyShell fun _ => rfl

end

/-! ## The end of a process -/

theorem StoppedWith.unique {s s' history}
    (h : StoppedWith s history) (h' : StoppedWith s' history) : s = s' := by
  obtain ⟨before, stop, after, errexit, bang, rfl, hbefore, hstep, htrap, -⟩ := h
  obtain ⟨before', stop', after', errexit', bang', heq, hbefore', hstep', htrap', -⟩ := h'
  have hstops : stop.stops = true := by simp [Entry.stops, hstep, htrap]
  have hstops' : stop'.stops = true := by simp [Entry.stops, hstep', htrap']
  -- neither stop lies before the other
  have hsame : stop = stop' := by
    rcases append_eq_append_iff.mp heq with ⟨mid, rfl, htail⟩ | ⟨mid, rfl, htail⟩
    · cases mid with
      | nil => exact (List.cons.inj htail).1
      | cons e mid =>
        obtain ⟨rfl, -⟩ := List.cons.inj htail
        have hfalse := hbefore' stop (by simp)
        rw [hstops] at hfalse
        cases hfalse
    · cases mid with
      | nil => exact ((List.cons.inj htail).1).symm
      | cons e mid =>
        obtain ⟨rfl, -⟩ := List.cons.inj htail
        have hfalse := hbefore stop' (by simp)
        rw [hstops'] at hfalse
        cases hfalse
  rw [hsame, hstep'] at hstep
  injection hstep with hstatus
  exact hstatus.symm

theorem Running.not_stopped (h : Running history) :
    ¬ StoppedWith status history := by
  rintro ⟨before, stop, after, errexit, bang, rfl, -, hstep, htrap, -⟩
  have hfalse := h stop (by simp)
  simp [Entry.stops, hstep, htrap] at hfalse

/-- If the shell has been stopped, then with what ends it now, or in a trap action. -/
def EndsWith (m : Machine W) (left : ExitStatus) : Prop :=
  ∀ status, StoppedWith status m.history → inTrap m.frames = true ∨ left = status

namespace Checks

variable {e : Ending ExitStatus ShellError Unit}

theorem settled (h : Checks e m u) (ha : Alive m) : Settled u.history := by
  rcases ha with hr | ⟨htrap, status, hs⟩
  · rcases h.running hr with hr | ⟨-, status, -, hs⟩
    · exact .inl hr
    · exact .inr ⟨status, hs⟩
  · exact .inr ⟨status, h.stopped htrap status hs⟩

theorem endsWith (h : Checks e m u) (ha : Alive m) (left : ExitStatus)
    (he : ∀ status, e = .error (.Exit status) → left = status) : EndsWith u left := by
  intro status hs
  rcases ha with hr | ⟨htrap, -⟩
  · rcases h.running hr with hr | ⟨-, status', he', hs'⟩
    · exact absurd hs hr.not_stopped
    · exact .inr ((he status' he').trans (hs'.unique hs))
  · exact .inl (h.frames ▸ htrap)

/-- An evaluation, and then what only disturbs the end of the process. -/
theorem settles (h : Checks e m u) (hlives : lives e)
    (ht : Alive m → Undisturbed e' u t) : Settles m t where
  sound hm ha := (ht ha).sound (h.faithful hlives hm ha) (h.settled ha)
  settled ha := (ht ha).settled (h.settled ha)

end Checks

theorem Settles.of_checks (h : Checks e m t) : Settles m t :=
  ⟨h.sound, h.settled⟩

theorem Tame.settles (h : Tame m u) (hu : Settles u t) : Settles m t where
  sound hm ha := hu.sound (h.faithful hm ha) (h.alive ha)
  settled ha := hu.settled (h.alive ha)

theorem undisturbed_leaves (h : EndsWith m left) :
    Undisturbed e m (m.note (.leaves left action)) :=
  .of_note nofun fun status hs => (h status hs).imp id id

theorem childStatus_run (other : ExitStatus)
    (result : Except ShellError ExitStatus) (m : Machine W) :
    ∃ status t, childStatus out other result m = some (.ok status, t) ∧ Quiet m t ∧
      ∀ s, result = .error (.Exit s) → status = s := by
  have hreport (e : ShellError) (he : ∀ s, e ≠ .Exit s) :
      ∃ status t, (do
        reportChildRefusal e
        errMsg out ("epsh: ".toList ++ e.display)
        return if e.isRefusal then ExitStatus.MISUSE else other : ShellM W ExitStatus) m =
          some (.ok status, t) ∧ Quiet m t ∧
        ∀ s, (.error e : Except ShellError ExitStatus) = .error (.Exit s) → status = s := by
    have hexit : ∀ s (status : ExitStatus),
        (.error e : Except ShellError ExitStatus) = .error (.Exit s) → status = s :=
      fun s _ h => absurd (Except.error.inj h) (he s)
    unfold reportChildRefusal errMsg writeErr
    split
    · exact ⟨_, _, rfl, ⟨rfl, rfl, rfl, rfl⟩, fun s h => hexit s _ h⟩
    · exact ⟨_, _, rfl, ⟨rfl, rfl, rfl, rfl⟩, fun s h => hexit s _ h⟩
  cases result with
  | ok status => exact ⟨status, m, rfl, ⟨rfl, rfl, rfl, rfl⟩, nofun⟩
  | error e =>
    cases e with
    | Exit status =>
      exact ⟨status, m, rfl, ⟨rfl, rfl, rfl, rfl⟩, fun s h => by cases h; rfl⟩
    | _ => exact hreport _ nofun

section

variable (out : Outside W) {eval : Command → ShellM W ExitStatus}
  (heval : ∀ cmd, Keeps Checks (eval cmd))
include heval

omit heval in
/-- The end of a shell environment, in which an `EXIT` action may be run. -/
theorem undisturbed_end {α : Type} {x : ShellM W α}
    (hx : Keeps Undisturbed x) (h : EndsWith m left) {e : Ending ExitStatus ShellError α}
    (hrun : (noteEnd left >>= fun _ => x) m = some (e, t)) : Undisturbed e.void m t :=
  Sequential.seq (R := Undisturbed) _ _ _ _ (undisturbed_leaves h) (hx _ _ _ hrun)

theorem settles_evalChild (other : ExitStatus) (runs_exit_trap : Bool)
    (x : ShellM W ExitStatus) (hx : Keeps Checks x) :
    Keeps (always Settles) (evalChild out eval other runs_exit_trap x) := by
  intro m e t h
  rw [evalChild, attempt_bind_run] at h
  have hrest (status : ExitStatus) : Keeps Undisturbed (do
      if runs_exit_trap then runExitTrap out eval
      return status : ShellM W ExitStatus) := by
    dsimp only
    exact .ite (fun _ => .bind (undisturbed_runExitTrap out heval) fun _ => .pure _) fun _ => .pure _
  have hend (result : Except ShellError ExitStatus) {ending : Ending ExitStatus ShellError Unit}
      {u : Machine W} (hu : Checks ending m u) (hlives : lives ending)
      (hresult : ∀ s, ending = .error (.Exit s) → result = .error (.Exit s))
      (hrun : (do
        let status ← childStatus out other result
        noteEnd status
        if runs_exit_trap then runExitTrap out eval
        return status : ShellM W ExitStatus) u = some (e, t)) : Settles m t := by
    suffices hdone : Alive m → Undisturbed e.void u t from hu.settles hlives hdone
    intro ha
    obtain ⟨status, v, hstatus, hquiet, hexit⟩ := childStatus_run out other result u
    rw [bind_ok hstatus] at hrun
    have hends : EndsWith v status := by
      have hu' := hu.endsWith ha status fun s hs => hexit s (hresult s hs)
      unfold EndsWith at hu' ⊢
      rw [hquiet.history, hquiet.frames]
      exact hu'
    exact Sequential.seq (R := Undisturbed) _ _ _ _ (.of_quiet hquiet)
      (undisturbed_end (hrest status) hends hrun)
  split at h
  · next status _ hr => exact hend (.ok status) (hx _ _ _ hr) trivial nofun h
  · next err _ hr =>
    refine hend (.error err) (hx _ _ _ hr) trivial (fun s hs => ?_) h
    injection hs with hs
    rw [hs]
  · next hr =>
    cases h
    exact .of_checks (hx _ _ _ hr)
  · cases h

end

/-! ## Evaluation -/

theorem constructs_check : Constructs out Tame Settles Checks where
  plain _ _ h := .of_tame h
  child _ _ h := .of_checks (.of_tame (e := .ok ()) h)
  child_after _ _ _ h hu := h.settles hu
  forgets e _ _ he h := .of_tame (h.tame trivial fun status heq => by
    injection heq with heq
    rw [heq] at he
    cases he)
  restores _ _ _ _ h hquiet := by
    have htame := Plain.quiet (P := Tame) _ _ hquiet
    exact {
      frames := hquiet.frames.trans h.frames
      grows := hquiet.history ▸ h.grows
      sound := fun hm ha =>
        ⟨hquiet.history ▸ (h.sound hm ha).rule, hquiet.others ▸ (h.sound hm ha).others⟩
      faithful := fun hlives hm ha => by
        have hu := h.faithful hlives hm ha
        have htested : _ = _ := congrArg (·.2.1) hquiet.context
        refine ⟨⟨hquiet.history ▸ hu.rule, hquiet.others ▸ hu.others⟩, ?_⟩
        rw [hquiet.history, hquiet.frames]
        exact hu.flag.imp id fun hflag => (iff_of_eq (congrArg (· = true) htested)).trans hflag
      running := fun hr => hquiet.history ▸ h.running hr
      stopped := fun htrap status hs => hquiet.history ▸ h.stopped htrap status hs }
  simple := checks_simple
  condition := checks_condition
  tested := checks_tested
  placement := checks_placement
  loop := checks_loop out
  call := checks_call
  leaf := checks_leaf
  forks := checks_fork out
  ends _ other runs_exit_trap x heval hx := settles_evalChild out heval other runs_exit_trap x hx

theorem checks_evalCommand (n : Nat) (cmd : Command) : Keeps Checks (evalCommand out n cmd) :=
  (constructs_check out).lawful.keeps_evalCommand n cmd

/-! ## Programs -/

section

variable (out : Outside W) {eval : Command → ShellM W ExitStatus}
  (heval : ∀ cmd, Keeps Checks (eval cmd))

theorem undisturbed_setExitStatus (status : ExitStatus) :
    Keeps Undisturbed (setExitStatus status : ShellM W Unit) :=
  undisturbed_modifyShell fun _ => rfl

section

include heval

theorem undisturbed_runSignalTraps (names : List Text) :
    Keeps Undisturbed (runSignalTraps out eval names) := by
  induction names with
  | nil => exact .pure _
  | cons name names ih =>
    unfold runSignalTraps
    refine .bind undisturbed_getShell fun sh => ?_
    split
    · exact .bind (undisturbed_runAction out heval _ _) fun _ => ih
    · exact ih

theorem undisturbed_runPendingTraps : Keeps Undisturbed (runPendingTraps out eval) :=
  .bind (undisturbed_outside _) fun names => undisturbed_runSignalTraps out heval names

theorem undisturbed_completeProgram (h : EndsWith m m.shell.exit_status)
    {e : Ending ExitStatus ShellError ProgramOutcome}
    (hrun : completeProgram out eval m = some (e, t)) : Undisturbed e.void m t := by
  have hx : Keeps Undisturbed (do
      runExitTrap out eval
      return ProgramOutcome.Completed (← getShell).exit_status : ShellM W ProgramOutcome) :=
    .bind (undisturbed_runExitTrap out heval) fun _ => .bind undisturbed_getShell fun _ => .pure _
  exact undisturbed_end hx h hrun

end

theorem interruptProgram_run (status : ExitStatus) (m : Machine W) :
    interruptProgram status m = some (.ok (),
      (m.withShell fun sh => { sh with exit_status := status }).note
        (.leaves status (m.shell.traps.lookup "EXIT".toList))) :=
  rfl

theorem undisturbed_killChildren : Keeps Undisturbed (killChildren out) := by
  intro m e t h
  cases h
  exact .of_quiet ⟨rfl, rfl, rfl, rfl⟩

theorem undisturbed_endProgram (heval : ∀ cmd, Keeps Checks (eval cmd)) (err : ShellError)
    (h : ∀ left, (∀ status, err = .Exit status → left = status) → EndsWith m left)
    {e}
    (hrun : endProgram out eval err m = some (e, t)) : Undisturbed e.void m t := by
  have hinterrupted (status : ExitStatus) (hne : ∀ s, err ≠ .Exit s)
      {x : ShellM W ProgramOutcome} (hx : Keeps Undisturbed x)
      (hrun : (interruptProgram status >>= fun _ => x) m = some (e, t)) :
      Undisturbed e.void m t := by
    rw [bind_ok (interruptProgram_run status m)] at hrun
    have hends : EndsWith (m.withShell fun sh => { sh with exit_status := status }) status :=
      h status fun s hs => absurd hs (hne s)
    have hset : Undisturbed (.ok ()) m (m.withShell fun sh => { sh with exit_status := status }) :=
      .of_quiet ⟨rfl, rfl, rfl, rfl⟩
    exact Sequential.seq (R := Undisturbed) _ _ _ _ hset
      (Sequential.seq (R := Undisturbed) _ _ _ _ (undisturbed_leaves hends) (hx _ _ _ hrun))
  have hcomplete (left : ExitStatus) (hleft : ∀ s, err = .Exit s → left = s) {u : Machine W}
      (hquiet : Quiet m u) (hstatus : u.shell.exit_status = left)
      (hrun : completeProgram out eval u = some (e, t)) : Undisturbed e.void m t := by
    have hends : EndsWith u u.shell.exit_status := by
      have hm := h left hleft
      rw [hstatus]
      unfold EndsWith at hm ⊢
      rw [hquiet.history, hquiet.frames]
      exact hm
    exact Sequential.seq (R := Undisturbed) _ _ _ _ (.of_quiet hquiet)
      (undisturbed_completeProgram out heval hends hrun)
  have hreported (hne : ∀ s, err ≠ .Exit s)
      (hrun : (do
        errMsg out ("epsh: ".toList ++ err.display)
        setExitStatus .MISUSE
        completeProgram out eval : ShellM W ProgramOutcome) m = some (e, t)) :
      Undisturbed e.void m t := by
    unfold errMsg writeErr at hrun
    have hmisuse : ∀ w : W, Quiet m { m with
        shell := { m.shell with exit_status := .MISUSE }, world := w } :=
      fun w => ⟨rfl, rfl, rfl, rfl⟩
    exact hcomplete .MISUSE (fun s hs => absurd hs (hne s)) (hmisuse _) rfl hrun
  cases err with
  | Exit status =>
    have hset : Quiet m (m.withShell fun sh => { sh with exit_status := status }) :=
      ⟨rfl, rfl, rfl, rfl⟩
    exact hcomplete status (fun s hs => by cases hs; rfl) hset rfl hrun
  | Cancelled | TimedOut =>
    exact hinterrupted _ nofun (.bind (undisturbed_killChildren out) fun _ => .pure _) hrun
  | Stopped pid pgid => exact hinterrupted _ nofun (.pure _) hrun
  | _ => exact hreported nofun hrun

theorem EndsWith.of_alive (ha : Alive m) (left : ExitStatus) : EndsWith m left := fun _ hs =>
  ha.elim (fun hr => absurd hs hr.not_stopped) fun htrap => .inl htrap.1

theorem Undisturbed.settles
    (h : Alive m → Undisturbed e m t) : Settles m t :=
  (Checks.of_tame (.refl m) : Checks (.ok ()) m m).settles trivial h

theorem settles_after {α β : Type} {x : ShellM W α} {f : α → ShellM W β}
    (hx : Keeps Undisturbed x) (hf : ∀ a, Keeps (always Settles) (f a)) :
    Keeps (always Settles) (x >>= f) := by
  intro m e t h
  rw [bind_run] at h
  split at h
  · next a _ hr => exact ((hx _ _ _ hr).tame trivial).settles (hf a _ _ _ h)
  · next hr =>
    cases h
    exact Undisturbed.settles fun _ => hx _ _ _ hr
  · next hr =>
    cases h
    exact Undisturbed.settles fun _ => hx _ _ _ hr
  · cases h

include heval

/-- By induction on the commands that are left: one command is a step of `Checks`, the
traps after it disturb nothing. -/
theorem settles_runCommands (commands : List Command) :
    Keeps (always Settles) (runCommands out eval commands) := by
  induction commands with
  | nil =>
    intro m e t h
    exact Undisturbed.settles fun ha =>
      undisturbed_completeProgram out heval (.of_alive ha _) h
  | cons cmd commands ih =>
    intro m e t h
    rw [runCommands, attempt_bind_run] at h
    split at h
    · next status u hr =>
      have hu := heval cmd _ _ _ hr
      have hrest : Keeps (always Settles) (do
          setExitStatus status
          runPendingTraps out eval
          runCommands out eval commands : ShellM W ProgramOutcome) :=
        settles_after (undisturbed_setExitStatus status) fun _ =>
          settles_after (undisturbed_runPendingTraps out heval) fun _ => ih
      exact (hu.tame trivial nofun).settles (hrest _ _ _ h)
    · next err u hr =>
      have hu := heval cmd _ _ _ hr
      exact hu.settles trivial fun ha =>
        undisturbed_endProgram out heval err
          (fun left hleft => hu.endsWith ha left fun s hs => hleft s (by injection hs)) h
    · next hr =>
      cases h
      exact .of_checks (heval cmd _ _ _ hr)
    · cases h

end

/-- A shell before its first command. -/
structure Machine.IsFresh (m : Machine W) : Prop where
  history : m.history = []
  others : m.others = []
  frames : m.frames = []
  tested : m.shell.tested = false

/-- What `set -e` promises of a process: it is stopped by no command that the
reference does not stop it at, and once it is stopped it leaves with that status. -/
structure ObeysErrexit (history : List Entry) : Prop where
  rule : FollowsRule history
  settled : Settled history

/-- `set -e; while true; do break && :; done; false` -/
def brokenCondition : Program :=
  ⟨[.ofWords ["set".toList, "-e".toList],
    .While (.ofWords ["true".toList]) (.And (.ofWords ["break".toList]) (.ofWords [":".toList])),
    .ofWords ["false".toList]]⟩

/-- The last check of a history, and whether it was in a condition. -/
def lastCheck (history : List Entry) : Option (ExitStatus × Bool × Bool × Bool × Bool) :=
  (history.reverse.findSome? fun entry =>
    match entry.step with
    | .checked status errexit bang stopped =>
      some (status, errexit, bang, stopped, entry.frames.contains .condition)
    | _ => none)

theorem run_brokenCondition :
    (runProgramOutcome .idle 20 brokenCondition .idle).map (fun r => lastCheck r.2.history) =
      some (some (.FAILURE, true, false, false, false)) := by
  decide +kernel

theorem lastCheck_mem
    (h : lastCheck history = some (status, errexit, bang, stopped, inCondition)) :
    ∃ entry ∈ history, entry.step = .checked status errexit bang stopped ∧
      entry.frames.contains .condition = inCondition := by
  obtain ⟨entry, hmem, hentry⟩ := exists_of_findSome?_eq_some h
  refine ⟨entry, mem_reverse.mp hmem, ?_⟩
  split at hentry
  · rename_i hstep
    cases hentry
    exact ⟨hstep, rfl⟩
  · cases hentry

end Ish.Epsh
