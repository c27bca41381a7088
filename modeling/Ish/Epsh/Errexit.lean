import Ish.Epsh.Constructs
import Ish.Epsh.Program
import Ish.Epsh.SimpleCommand

/-!
# `set -e`

The reference meaning of `set -e` is lexical: a failing command ends the shell
unless it is evaluated inside a condition. The source decides it by the flag
`tested`. The two agree as long as no condition is left by an error, which is the
one way out of a condition that does not put the flag back.
-/

namespace Ish.Epsh

open Ish.Lib List
open Process (Keeps Sequential always bind_error bind_ok bind_run)

variable {W : Type} {m t u : Machine W}

/-! ## The reference meaning -/

def Frame.isTrap : Frame → Bool
  | .trap _ => true
  | _ => false

def inTrap (frames : List Frame) : Bool := frames.any Frame.isTrap

/-- `status` of a command checked in `frames` ends the shell. -/
def mustStop (frames : List Frame) (status : ExitStatus) (errexit bang : Bool) : Prop :=
  errexit = true ∧ status.success = false ∧ bang = false ∧ .condition ∉ frames

/-- A condition has been left by an error. -/
def LeftCondition (history : List Entry) : Prop :=
  ∃ e ∈ history, e.step.breaks .condition = true

/-- Every check follows the reference meaning until a condition is left by an error. -/
def FollowsRule (history : List Entry) : Prop :=
  ∀ before entry after, history = before ++ entry :: after → ¬ LeftCondition before →
    ∀ status errexit bang stopped, entry.step = .checked status errexit bang stopped →
      (stopped = true ↔ mustStop entry.frames status errexit bang)

/-- A check ends the shell; the commands of a trap action go on regardless. -/
def Entry.stops (entry : Entry) : Bool :=
  match entry.step with
  | .checked _ _ _ true => !inTrap entry.frames
  | _ => false

/-- What can still follow the end of the shell with `status`. -/
def Entry.followsStop (status : ExitStatus) (entry : Entry) : Prop :=
  inTrap entry.frames = true ∨
    match entry.step with
    | .broke .. | .trapped .. => True
    | .leaves left _ => left = status
    | _ => False

def Running (history : List Entry) : Prop := ∀ e ∈ history, e.stops = false

/-- The shell was ended by a check of `status`, and nothing was evaluated after
that but trap actions. -/
def StoppedWith (status : ExitStatus) (history : List Entry) : Prop :=
  ∃ before entry after errexit bang, history = before ++ entry :: after ∧ Running before ∧
    entry.step = .checked status errexit bang true ∧ inTrap entry.frames = false ∧
    ∀ e ∈ after, e.followsStop status

def Settled (history : List Entry) : Prop := Running history ∨ ∃ status, StoppedWith status history

/-! ## What evaluation preserves -/

/-- All checks so far are right, also those of children. -/
structure Sound (m : Machine W) : Prop where
  rule : FollowsRule m.history
  others : ∀ history ∈ m.others, FollowsRule history ∧ Settled history

/-- The flag is the lexical context as well, unless a condition has been left by an
error. -/
structure Faithful (m : Machine W) : Prop extends Sound m where
  flag : LeftCondition m.history ∨ (m.shell.tested = true ↔ .condition ∈ m.frames)

/-- Something can still be evaluated. -/
def Alive (m : Machine W) : Prop :=
  Running m.history ∨ inTrap m.frames = true ∧ ∃ status, StoppedWith status m.history

/-- What plain computations preserve, and trap actions as a whole. -/
structure Tame (m t : Machine W) : Prop where
  frames : t.frames = m.frames
  grows : m.history <+: t.history
  faithful : Faithful m → Alive m → Faithful t
  running : Running m.history → Running t.history
  stopped : inTrap m.frames = true → ∀ status, StoppedWith status m.history →
    StoppedWith status t.history

/-- The process goes on. -/
def lives : Ending ExitStatus ShellError Unit → Prop
  | .quit _ => False
  | _ => True

/-- What evaluation preserves: only an exit may follow the end of the shell. -/
structure Checks (e : Ending ExitStatus ShellError Unit) (m t : Machine W) : Prop where
  frames : t.frames = m.frames
  grows : m.history <+: t.history
  sound : Faithful m → Alive m → Sound t
  faithful : lives e → Faithful m → Alive m → Faithful t
  running : Running m.history → Running t.history ∨
    inTrap m.frames = false ∧ ∃ status, e = .error (.Exit status) ∧ StoppedWith status t.history
  stopped : inTrap m.frames = true → ∀ status, StoppedWith status m.history →
    StoppedWith status t.history

/-- What a whole process preserves. -/
structure Settles (m t : Machine W) : Prop where
  sound : Faithful m → Alive m → Sound t
  settled : Alive m → Settled t.history

theorem leftCondition_append (h : LeftCondition a) : LeftCondition (a ++ b) :=
  h.imp fun _ he => ⟨mem_append_left _ he.1, he.2⟩

theorem Running.append {history entry} (h : Running history)
    (hentry : entry.stops = false) : Running (history ++ [entry]) := by
  intro e he
  rcases mem_append.mp he with he | he
  · exact h e he
  · rw [mem_singleton.mp he]
    exact hentry

theorem StoppedWith.append {status history entry}
    (h : StoppedWith status history) (hentry : entry.followsStop status) :
    StoppedWith status (history ++ [entry]) := by
  obtain ⟨before, stop, after, errexit, bang, rfl, hrunning, hstep, htrap, hafter⟩ := h
  refine ⟨before, stop, after ++ [entry], errexit, bang, by simp, hrunning, hstep, htrap, ?_⟩
  intro e he
  rcases mem_append.mp he with he | he
  · exact hafter e he
  · rw [mem_singleton.mp he]
    exact hentry

theorem FollowsRule.append {history entry} (h : FollowsRule history)
    (hentry : ¬ LeftCondition history → ∀ status errexit bang stopped,
      entry.step = .checked status errexit bang stopped →
        (stopped = true ↔ mustStop entry.frames status errexit bang)) :
    FollowsRule (history ++ [entry]) := by
  intro before e after heq hleft
  rcases eq_nil_or_concat after with rfl | ⟨after', last, rfl⟩
  · obtain ⟨rfl, hlast⟩ := append_inj' heq rfl
    injection hlast with hlast
    subst hlast
    exact hentry hleft
  · have hinit : history ++ [entry] = (before ++ e :: after') ++ [last] := by
      rw [heq, concat_eq_append]
      simp
    exact h before e after' (append_inj' hinit rfl).1 hleft

namespace Tame

theorem refl (m : Machine W) : Tame m m :=
  ⟨rfl, prefix_refl _, fun h _ => h, id, fun _ _ => id⟩

theorem alive (h : Tame m t) (hm : Alive m) : Alive t := by
  rcases hm with hrunning | ⟨htrap, status, hstopped⟩
  · exact .inl (h.running hrunning)
  · refine .inr ⟨?_, status, h.stopped htrap status hstopped⟩
    rw [h.frames]
    exact htrap

theorem trans (hst : Tame m t) (htu : Tame t u) : Tame m u where
  frames := htu.frames.trans hst.frames
  grows := hst.grows.trans htu.grows
  faithful hm halive := htu.faithful (hst.faithful hm halive) (hst.alive halive)
  running h := htu.running (hst.running h)
  stopped htrap status h := by
    refine htu.stopped ?_ status (hst.stopped htrap status h)
    rw [hst.frames]
    exact htrap

/-- Nothing is noted and the flag is as before. -/
theorem same (hframes : t.frames = m.frames) (hhistory : t.history = m.history)
    (hothers : t.others = m.others) (htested : t.shell.tested = m.shell.tested) : Tame m t where
  frames := hframes
  grows := hhistory ▸ prefix_refl _
  faithful hm _ := by
    refine ⟨⟨?_, ?_⟩, ?_⟩
    · rw [hhistory]
      exact hm.rule
    · rw [hothers]
      exact hm.others
    · rw [hhistory, htested, hframes]
      exact hm.flag
  running h := by rwa [hhistory]
  stopped _ _ h := by rwa [hhistory]

theorem note (hchecked : ∀ status errexit bang stopped,
    step ≠ .checked status errexit bang stopped) : Tame m (m.note step) where
  frames := rfl
  grows := prefix_append _ _
  faithful hm _ := by
    refine ⟨⟨?_, hm.others⟩, hm.flag.imp leftCondition_append id⟩
    exact hm.rule.append fun _ status errexit bang stopped h =>
      absurd h (hchecked status errexit bang stopped)
  running h := by
    refine h.append ?_
    unfold Entry.stops
    split
    · exact absurd ‹_› (hchecked _ _ _ _)
    · rfl
  stopped htrap status h := h.append (.inl htrap)

end Tame

instance : Neutral (Tame (W := W)) where
  refl := Tame.refl
  trans _ _ _ := Tame.trans
  quiet _ _ h := .same h.frames h.history h.others (congrArg (·.2.1) h.context)
  notes _ step h := .note (by rintro _ _ _ _ rfl; cases h)
  localizes m name :=
    .trans (.note (by simp))
      (.same rfl rfl rfl rfl)
  steps _ step h := .note (by rintro _ _ _ _ rfl; cases h)

namespace Checks

variable {e : Ending ExitStatus ShellError Unit}

theorem of_tame (h : Tame m t) : Checks e m t :=
  ⟨h.frames, h.grows, fun hf ha => (h.faithful hf ha).toSound, fun _ => h.faithful,
    fun hm => .inl (h.running hm), h.stopped⟩

theorem tame (h : Checks e m t) (hlives : lives e) (he : ∀ status, e ≠ .error (.Exit status)) :
    Tame m t where
  frames := h.frames
  grows := h.grows
  faithful := h.faithful hlives
  running hm := by
    rcases h.running hm with hr | ⟨-, status, rfl, -⟩
    · exact hr
    · exact absurd rfl (he status)
  stopped := h.stopped

end Checks

instance : Sequential (Checks (W := W)) where
  refl m := .of_tame (.refl m)
  any _ _ _ h := .of_tame (h.tame trivial nofun)
  seq e m t u hmt htu := by
    have hm := hmt.tame trivial nofun
    exact {
      frames := htu.frames.trans hm.frames
      grows := hm.grows.trans htu.grows
      sound := fun hf ha => htu.sound (hm.faithful hf ha) (hm.alive ha)
      faithful := fun hlives hf ha => htu.faithful hlives (hm.faithful hf ha) (hm.alive ha)
      running := fun hr => by
        rw [← hm.frames]
        exact htu.running (hm.running hr)
      stopped := fun htrap status hs =>
        htu.stopped (hm.frames ▸ htrap) status (hm.stopped htrap status hs) }

/-! ## Constructs -/

variable {e : Ending ExitStatus ShellError Unit}

/-- Into a construct, from `m` to `k`, and from `u` out of it, to `t`. -/
theorem Checks.construct
    (h : Checks e k u) (hin : Faithful m → Faithful k) (htrap : inTrap k.frames = inTrap m.frames)
    (hstart : k.history = m.history) (hframes : t.frames = m.frames) (hothers : t.others = u.others)
    (hhistory : t.history = u.history ∨
      ∃ p err, t.history = u.history ++ [⟨m.frames, .broke p err⟩])
    (hflag : lives e → Faithful m → Faithful u →
      LeftCondition t.history ∨ (t.shell.tested = true ↔ .condition ∈ m.frames)) :
    Checks e m t := by
  have hgrows : u.history <+: t.history := by
    rcases hhistory with hh | ⟨p, err, hh⟩
    · exact hh ▸ prefix_refl _
    · exact hh ▸ prefix_append _ _
  have hrule (hu : FollowsRule u.history) : FollowsRule t.history := by
    rcases hhistory with hh | ⟨p, err, hh⟩
    · exact hh ▸ hu
    · exact hh ▸ hu.append fun _ _ _ _ _ heq => nomatch heq
  have hrunning (hu : Running u.history) : Running t.history := by
    rcases hhistory with hh | ⟨p, err, hh⟩
    · exact hh ▸ hu
    · exact hh ▸ hu.append rfl
  have hstopped (status : ExitStatus) (hu : StoppedWith status u.history) :
      StoppedWith status t.history := by
    rcases hhistory with hh | ⟨p, err, hh⟩
    · exact hh ▸ hu
    · exact hh ▸ hu.append (.inr trivial)
  have halive (ha : Alive m) : Alive k := by
    unfold Alive
    rw [hstart, htrap]
    exact ha
  have hsound (hu : Sound u) : Sound t := ⟨hrule hu.rule, hothers ▸ hu.others⟩
  refine ⟨hframes, (hstart ▸ h.grows).trans hgrows, ?_, ?_, ?_, ?_⟩
  · exact fun hf ha => hsound (h.sound (hin hf) (halive ha))
  · intro hlives hf ha
    have hu := h.faithful hlives (hin hf) (halive ha)
    refine ⟨hsound hu.toSound, ?_⟩
    rw [hframes]
    exact hflag hlives hf hu
  · intro hr
    rcases h.running (hstart ▸ hr) with hr | ⟨hfalse, status, he, hs⟩
    · exact .inl (hrunning hr)
    · exact .inr ⟨htrap ▸ hfalse, status, he, hstopped status hs⟩
  · intro htr status hs
    exact hstopped status (h.stopped (htrap ▸ htr) status (hstart ▸ hs))

/-- A construct that is neither a condition nor a trap action, and leaves the flag
to its part. -/
theorem Checks.inside
    (h : Checks e ((m.withShell f).inside frame) u) (hcondition : frame ≠ .condition)
    (htrap : frame.isTrap = false) (hf : (f m.shell).tested = m.shell.tested)
    (hframes : t.frames = m.frames) (hothers : t.others = u.others)
    (hhistory : t.history = u.history ∨
      ∃ p err, t.history = u.history ++ [⟨m.frames, .broke p err⟩])
    (htested : t.shell.tested = u.shell.tested) : Checks e m t := by
  have hmem : Frame.condition ∈ frame :: m.frames ↔ Frame.condition ∈ m.frames := by
    simp [hcondition.symm]
  have hgrows : u.history <+: t.history := by
    rcases hhistory with hh | ⟨p, err, hh⟩
    · exact hh ▸ prefix_refl _
    · exact hh ▸ prefix_append _ _
  refine h.construct ?_ ?_ rfl hframes hothers hhistory ?_
  · intro hm
    refine ⟨⟨hm.rule, hm.others⟩, hm.flag.imp id fun hflag => ?_⟩
    change (f m.shell).tested = true ↔ Frame.condition ∈ frame :: m.frames
    rw [hf, hmem]
    exact hflag
  · change (frame.isTrap || inTrap m.frames) = _
    rw [htrap, Bool.false_or]
  · intro _ _ hu
    refine hu.flag.imp (fun ⟨e, he, hb⟩ => ⟨e, hgrows.subset he, hb⟩) fun hflag => ?_
    rw [htested, hflag, h.frames]
    exact hmem

/-- A condition, with the flag put back. -/
theorem Checks.condition
    (h : Checks e ((m.withShell fun sh => { sh with tested := true }).inside .condition) u)
    (hframes : t.frames = m.frames) (hothers : t.others = u.others)
    (hhistory : t.history = u.history ∨
      ∃ p err, t.history = u.history ++ [⟨m.frames, .broke p err⟩])
    (hflag : lives e → LeftCondition t.history ∨ t.shell.tested = m.shell.tested) :
    Checks e m t := by
  have hgrows : m.history <+: t.history := by
    refine h.grows.trans ?_
    rcases hhistory with hh | ⟨p, err, hh⟩
    · exact hh ▸ prefix_refl _
    · exact hh ▸ prefix_append _ _
  refine h.construct ?_ rfl rfl hframes hothers hhistory ?_
  · exact fun hm => ⟨⟨hm.rule, hm.others⟩, .inr ⟨fun _ => mem_cons_self, fun _ => rfl⟩⟩
  · intro hlives hm _
    rcases hflag hlives with hleft | htested
    · exact .inl hleft
    · rw [htested]
      exact hm.flag.imp (fun ⟨e, he, hb⟩ => ⟨e, hgrows.subset he, hb⟩) id

theorem checks_simple (x : ShellM W ExitStatus) (hx : Keeps Checks x) :
    Keeps Checks (within .simple x) := by
  intro m e t h
  rw [within_run] at h
  split at h
  · next e u hr =>
    cases h
    have hpart : Checks e.void ((m.withShell id).inside .simple) u := hx _ _ _ hr
    exact hpart.inside nofun rfl rfl rfl rfl (.inl rfl) rfl
  · cases h

theorem checks_condition (x : ShellM W ExitStatus) (hx : Keeps Checks x) :
    Keeps Checks (evalCondition x) := by
  intro m e t h
  rw [evalCondition_run] at h
  split at h
  · next hr =>
    cases h
    exact (hx _ _ _ hr).condition rfl rfl (.inl rfl) fun _ => .inr rfl
  · next err _ hr =>
    cases h
    exact (hx _ _ _ hr).condition rfl rfl (.inr ⟨_, err, rfl⟩)
      fun _ => .inl ⟨_, mem_append_right _ mem_cons_self, rfl⟩
  · next hr =>
    cases h
    exact (hx _ _ _ hr).condition rfl rfl (.inl rfl) False.elim
  · cases h

theorem checks_tested (bang : Bool) (x : ShellM W ExitStatus) (hx : Keeps Checks x) :
    Keeps Checks (withTested bang x) := by
  intro m e t h
  rw [withTested_run] at h
  cases bang with
  | false =>
    simp only [Bool.false_eq_true, if_false] at h
    split at h
    · next hr =>
      cases h
      exact hx _ _ _ hr
    · next hr =>
      cases h
      have hu := hx _ _ _ hr
      exact hu.construct (fun hm => hm) rfl rfl hu.frames rfl (.inl rfl) fun _ hm _ =>
        hm.flag.imp (fun ⟨e, he, hb⟩ => ⟨e, hu.grows.subset he, hb⟩) id
    · cases h
  | true =>
    simp only [if_true] at h
    split at h
    · next hr =>
      cases h
      exact (hx _ _ _ hr).condition rfl rfl (.inl rfl) False.elim
    · next hr =>
      cases h
      exact (hx _ _ _ hr).condition rfl rfl (.inl rfl) fun _ => .inr rfl
    · cases h

theorem checks_placement (f : PlacementContext → PlacementContext) (x : ShellM W ExitStatus)
    (hx : Keeps Checks x) : Keeps Checks (withPlacement f x) := by
  intro m e t h
  rw [withPlacement_run] at h
  have hin (hm : Faithful m) : Faithful (m.withShell fun sh =>
      { sh with placement_context := f sh.placement_context }) :=
    ⟨⟨hm.rule, hm.others⟩, hm.flag⟩
  have hleft {u t : Machine W} {e : Ending ExitStatus ShellError Unit}
      (hu : Checks e (m.withShell fun sh =>
        { sh with placement_context := f sh.placement_context }) u)
      (ht : t = u ∨ t = u.withShell fun sh =>
        { sh with placement_context := m.shell.placement_context }) : Checks e m t := by
    have hframes : u.frames = m.frames := hu.frames
    rcases ht with rfl | rfl
    all_goals
      exact hu.construct hin rfl rfl hframes rfl (.inl rfl) fun _ _ hf => hframes ▸ hf.flag
  split at h
  · next hr =>
    cases h
    exact hleft (hx _ _ _ hr) (.inl rfl)
  · next hr =>
    cases h
    exact hleft (hx _ _ _ hr) (.inr rfl)
  · cases h

theorem checks_loop (out : Outside W) (rounds : ShellM W LoopEnd)
    (hrounds : Keeps Checks (rounds >>= fun e => Process.ofExcept e.result)) :
    Keeps Checks (inLoop out rounds) := by
  intro m e t h
  rw [inLoop_run] at h
  split at h
  · next hr =>
    cases h
    have hu := hrounds _ _ _ (bind_ok hr)
    exact hu.inside nofun rfl rfl rfl rfl (.inl rfl) rfl
  · next hr =>
    cases h
    have hu := hrounds _ _ _ (bind_ok hr)
    exact hu.inside nofun rfl rfl rfl rfl (.inl rfl) rfl
  · next msg u hr =>
    have hu := hrounds _ _ _ (bind_ok hr)
    have hstuck : Checks (.ok ()) m ((u.backIn m.frames).note (.broke .loop (.Runtime msg {}))) :=
      hu.inside nofun rfl rfl rfl rfl (.inr ⟨_, _, rfl⟩) rfl
    have hmsg : Keeps (always Tame)
        (do errMsg out msg; return ExitStatus.FAILURE : ShellM W ExitStatus) :=
      .bind (Plain.keeps_errMsg out msg) fun _ => .pure _
    exact Sequential.seq (R := Checks) _ _ _ _ hstuck (.of_tame (hmsg _ _ _ h))
  · next err _ hr =>
    cases h
    have hu := hrounds _ _ _ (bind_error hr)
    exact hu.inside nofun rfl rfl rfl rfl (.inr ⟨_, err, rfl⟩) rfl
  · next q u hr =>
    cases h
    have hu : Checks (.quit q) _ u := hrounds _ (.quit q) _ (by rw [bind_run, hr])
    exact hu.inside nofun rfl rfl rfl rfl (.inl rfl) rfl
  · cases h

theorem checks_call (args : List Text) (x : ShellM W (Except ShellError ExitStatus))
    (hx : Keeps Checks (x >>= Process.ofExcept)) : Keeps Checks (inCall args x) := by
  intro m e t h
  rw [inCall_run] at h
  split at h
  · next result _ hr =>
    cases result <;> cases h
    all_goals
      have hu := hx _ _ _ (bind_ok hr)
      exact hu.inside nofun rfl rfl rfl rfl (.inl rfl) rfl
  · next err _ hr =>
    cases h
    have hu := hx _ _ _ (bind_error hr)
    exact hu.inside nofun rfl rfl rfl rfl (.inr ⟨_, err, rfl⟩) rfl
  · next q u hr =>
    cases h
    have hu : Checks (.quit q) _ u := hx _ (.quit q) _ (by rw [bind_run, hr])
    exact hu.inside nofun rfl rfl rfl rfl (.inl rfl) rfl
  · cases h

theorem checks_leaf (cmd : Command) (status : ExitStatus) :
    Keeps Checks (checkStatus cmd status : ShellM W ExitStatus) := by
  intro m e t h
  rw [checkStatus_run] at h
  have hset : Tame m (m.withShell fun sh => { sh with exit_status := status }) :=
    .same rfl rfl rfl rfl
  cases hleaf : cmd.isLeaf with
  | false =>
    have hgo : m.shell.stopsOn cmd status = false := by simp [Shell.stopsOn, hleaf]
    rw [hleaf, hgo] at h
    cases h
    exact .of_tame hset
  | true =>
    rw [hleaf] at h
    cases h
    have hrule (hm : Faithful m) (hleft : ¬ LeftCondition m.history) :
        m.shell.stopsOn cmd status = true ↔
          mustStop m.frames status m.shell.opts.errexit cmd.isBang := by
      have hflag := hm.flag.resolve_left hleft
      unfold Shell.stopsOn mustStop
      rw [hleaf, ← hflag]
      cases m.shell.opts.errexit <;> cases m.shell.tested <;> cases cmd.isBang <;>
        cases status.success <;> simp
    have hfaithful (hm : Faithful m) : Faithful ((m.withShell fun sh =>
        { sh with exit_status := status }).note
          (.checked status m.shell.opts.errexit cmd.isBang (m.shell.stopsOn cmd status))) := by
      refine ⟨⟨hm.rule.append ?_, hm.others⟩, hm.flag.imp leftCondition_append id⟩
      intro hleft _ _ _ _ hstep
      injection hstep with h1 h2 h3 h4
      subst h1 h2 h3 h4
      exact hrule hm hleft
    refine ⟨rfl, prefix_append _ _, fun hm _ => (hfaithful hm).toSound,
      fun _ hm _ => hfaithful hm, ?_, fun htrap _ hs => hs.append (.inl htrap)⟩
    intro hrun
    cases hstops : m.shell.stopsOn cmd status with
    | false => exact .inl (hrun.append rfl)
    | true =>
      cases htrap : inTrap m.frames with
      | true =>
        refine .inl (hrun.append ?_)
        simp [Entry.stops, htrap, Machine.withShell]
      | false =>
        exact .inr ⟨rfl, status, rfl, m.history, _, [], _, _, rfl, hrun, rfl, htrap, nofun⟩

end Ish.Epsh
