import Ish.Epsh.Constructs
import Ish.Epsh.SimpleCommand

/-!
# The context of an evaluation

Loops are counted, function calls have a scope each, and the placement context says
where a command is evaluated. Every construct puts back what it changed, unless an
error leaves it where the source has no cleanup; the history says how often that
happened, so that the context afterwards is known exactly.
-/

namespace Ish.Epsh

open Ish.Lib List
open Process (Keeps Sequential always bind_error bind_ok)

variable {W : Type} {m t u : Machine W}

/-! ## What the history says of the context -/

def Frame.isCall : Frame → Bool
  | .call _ => true
  | _ => false

/-- How many function calls a step was taken in. -/
def callDepth (frames : List Frame) : Nat := frames.countP Frame.isCall

theorem callDepth_call (name : Text) (frames : List Frame) :
    callDepth (.call name :: frames) = callDepth frames + 1 :=
  countP_cons_of_pos rfl

/-- How often a construct was left without its cleanup. -/
def breaks (p : Part) (entries : List Entry) : Nat := entries.countP fun e => e.step.breaks p

/-- A variable made local at a depth of calls, with its earlier binding. -/
def Entry.localAt (depth : Nat) (entry : Entry) : Option SavedVar :=
  match entry.step with
  | .localizes name previous =>
    if callDepth entry.frames = depth then some ⟨name, previous⟩ else none
  | _ => none

def localsAt (depth : Nat) (entries : List Entry) : List SavedVar :=
  entries.filterMap (Entry.localAt depth)

/-- Save variables in the innermost scope. -/
def saveIn (saved : List SavedVar) : List Scope → List Scope
  | scope :: scopes => ⟨scope.saved ++ saved⟩ :: scopes
  | [] => []

@[simp] theorem breaks_append (p : Part) (a b : List Entry) :
    breaks p (a ++ b) = breaks p a + breaks p b :=
  countP_append

@[simp] theorem localsAt_append (depth : Nat) (a b : List Entry) :
    localsAt depth (a ++ b) = localsAt depth a ++ localsAt depth b :=
  filterMap_append

@[simp] theorem saveIn_nil (scopes : List Scope) : saveIn [] scopes = scopes := by
  cases scopes with
  | nil => rfl
  | cons scope scopes =>
    rw [saveIn, append_nil]

theorem saveIn_append (a b : List SavedVar) (scopes : List Scope) :
    saveIn (a ++ b) scopes = saveIn b (saveIn a scopes) := by
  cases scopes with
  | nil => rfl
  | cons scope scopes => rw [saveIn, saveIn, saveIn, append_assoc]

theorem localsAt_eq_nil
    (h : ∀ e ∈ entries, depth < callDepth e.frames) : localsAt depth entries = [] := by
  refine filterMap_eq_nil_iff.mpr fun e he => ?_
  have hne : callDepth e.frames ≠ depth := Nat.ne_of_gt (h e he)
  unfold Entry.localAt
  split
  · exact if_neg hne
  · rfl

/-! ## How the context evolves -/

/-- The context after the steps `new`: what was left without cleanup is counted. -/
structure Evolves (m t : Machine W) (new : List Entry) : Prop where
  history : t.history = m.history ++ new
  frames : t.frames = m.frames
  inner : ∀ e ∈ new, callDepth m.frames ≤ callDepth e.frames
  placement : t.shell.placement_context = m.shell.placement_context
  loops : t.shell.loop_depth = m.shell.loop_depth + breaks .loop new
  depth : t.shell.vars.scopes.length = m.shell.vars.scopes.length + breaks .call new
  scopes : breaks .call new = 0 →
    t.shell.vars.scopes = saveIn (localsAt (callDepth m.frames) new) m.shell.vars.scopes

namespace Evolves

variable {a b : List Entry}

theorem refl (m : Machine W) : Evolves m m [] :=
  ⟨(append_nil _).symm, rfl, nofun, rfl, rfl, rfl, fun _ => (saveIn_nil _).symm⟩

theorem trans (hst : Evolves m t a) (htu : Evolves t u b) : Evolves m u (a ++ b) where
  history := by rw [htu.history, hst.history, append_assoc]
  frames := htu.frames.trans hst.frames
  inner e he := by
    rcases mem_append.mp he with he | he
    · exact hst.inner e he
    · rw [← hst.frames]
      exact htu.inner e he
  placement := htu.placement.trans hst.placement
  loops := by rw [htu.loops, hst.loops, breaks_append, Nat.add_assoc]
  depth := by rw [htu.depth, hst.depth, breaks_append, Nat.add_assoc]
  scopes h := by
    rw [breaks_append, Nat.add_eq_zero_iff] at h
    rw [htu.scopes h.2, hst.scopes h.1, hst.frames, localsAt_append, saveIn_append]

theorem quiet (h : Quiet m t) : Evolves m t [] where
  history := by rw [h.history, append_nil]
  frames := h.frames
  inner := nofun
  placement := congrArg (·.2.2.1) h.context
  loops := congrArg (·.1) h.context
  depth := congrArg (·.2.2.2.2.length) h.context
  scopes _ := by
    have hscopes : t.shell.vars.scopes = m.shell.vars.scopes := congrArg (·.2.2.2.2) h.context
    rw [hscopes]
    exact (saveIn_nil _).symm

theorem note (hloop : step.breaks .loop = false) (hcall : step.breaks .call = false)
    (hlocal : (Entry.mk m.frames step).localAt (callDepth m.frames) = none) :
    Evolves m (m.note step) [⟨m.frames, step⟩] where
  history := rfl
  frames := rfl
  inner e he := by rw [mem_singleton.mp he]
  placement := rfl
  loops := by simp [breaks, hloop, Machine.note]
  depth := by simp [breaks, hcall, Machine.note]
  scopes _ := by simp [localsAt, hlocal, Machine.note]

theorem localize (m : Machine W) (name : Text) :
    Evolves m (m.localize name)
      [⟨m.frames, .localizes name (m.shell.vars.binding name)⟩] where
  history := rfl
  frames := rfl
  inner e he := by rw [mem_singleton.mp he]
  placement := rfl
  loops := rfl
  depth := by
    unfold Machine.localize Variables.makeLocal
    cases hscopes : m.shell.vars.scopes with
    | nil => simp [hscopes, breaks, Step.breaks]
    | cons scope scopes => simp [breaks, Step.breaks]
  scopes _ := by
    unfold Machine.localize Variables.makeLocal
    cases hscopes : m.shell.vars.scopes with
    | nil => simp [hscopes, saveIn]
    | cons scope scopes => simp [saveIn, localsAt, Entry.localAt]

theorem backIn (hframe : frame.isCall = false)
    (h : Evolves (m.inside frame) t a) : Evolves m (t.backIn m.frames) a := by
  have hdepth : callDepth (m.inside frame).frames = callDepth m.frames := by
    simp [Machine.inside, callDepth, hframe]
  exact {
    history := h.history
    frames := rfl
    inner := fun e he => hdepth ▸ h.inner e he
    placement := h.placement
    loops := h.loops
    depth := h.depth
    scopes := fun hzero => hdepth ▸ h.scopes hzero }

theorem withShell (hplacement : ∀ sh, (f sh).placement_context = sh.placement_context)
    (hloops : ∀ sh, (f sh).loop_depth = sh.loop_depth) (hscopes : ∀ sh, (f sh).vars.scopes = sh.vars.scopes) :
    Evolves m (m.withShell f) [] where
  history := (append_nil _).symm
  frames := rfl
  inner := nofun
  placement := hplacement m.shell
  loops := hloops m.shell
  depth := congrArg List.length (hscopes m.shell)
  scopes _ := (hscopes m.shell).trans (saveIn_nil _).symm

end Evolves

/-- What plain computations and evaluation do to the context. A shell that has ended
has none. -/
def EvolvesSome (m t : Machine W) : Prop := ∃ new, Evolves m t new

def EvolvesUnlessEnded : Ending ExitStatus ShellError Unit → Machine W → Machine W → Prop
  | .quit _ => fun _ _ => True
  | _ => EvolvesSome

theorem evolvesSome_note (h : step.isPlain = true ∨ step.isNeutral = true) :
    EvolvesSome m (m.note step) := by
  refine ⟨_, .note ?_ ?_ ?_⟩
  all_goals cases step <;> simp_all [Step.isPlain, Step.isNeutral, Step.breaks, Entry.localAt]

instance : Neutral (EvolvesSome (W := W)) where
  refl m := ⟨[], .refl m⟩
  trans _ _ _ := fun ⟨_, hst⟩ ⟨_, htu⟩ => ⟨_, hst.trans htu⟩
  quiet _ _ h := ⟨[], .quiet h⟩
  notes _ _ h := evolvesSome_note (.inl h)
  localizes m name := ⟨_, .localize m name⟩
  steps _ _ h := evolvesSome_note (.inr h)

theorem evolves_of_ok (h : EvolvesSome m t) :
    EvolvesUnlessEnded e m t := by
  cases e <;> first | exact h | trivial

instance : Sequential (EvolvesUnlessEnded (W := W)) where
  refl m := ⟨[], .refl m⟩
  any _ _ _ h := evolves_of_ok h
  seq e _ _ _ hst htu := by
    cases e with
    | quit _ => trivial
    | ok _ | error _ => exact IsTrans.trans (r := EvolvesSome) _ _ _ hst htu

/-! ## Constructs -/

variable {new : List Entry}

/-- Into a construct that changes the shell by `f`, and out of it again. -/
theorem evolves_inside
    (h : Evolves ((m.withShell f).inside frame) t new) (hframe : frame.isCall = false)
    (hinto : Evolves m (m.withShell f) []) : Evolves m (t.backIn m.frames) new := by
  have hall := hinto.trans (h.backIn hframe)
  rwa [nil_append] at hall

theorem evolves_withShell (h : Evolves m t new)
    (hf : Evolves t (t.withShell f) []) : Evolves m (t.withShell f) new := by
  have hall := h.trans hf
  rwa [append_nil] at hall

theorem evolves_mono {m' t' : Machine W}
    (ht : EvolvesUnlessEnded e m t) (h : ∀ new, Evolves m t new → EvolvesSome m' t') :
    EvolvesUnlessEnded e m' t' := by
  cases e with
  | quit q => trivial
  | ok _ | error _ =>
    obtain ⟨new, hnew⟩ := ht
    exact h new hnew

theorem keeps_simple (x : ShellM W ExitStatus) (hx : Keeps EvolvesUnlessEnded x) :
    Keeps EvolvesUnlessEnded (within .simple x) := by
  intro m e t h
  rw [within_run] at h
  split at h
  · next hr =>
    cases h
    exact evolves_mono (hx _ _ _ hr) fun new hnew => ⟨new, hnew.backIn rfl⟩
  · cases h

theorem keeps_condition (x : ShellM W ExitStatus) (hx : Keeps EvolvesUnlessEnded x) :
    Keeps EvolvesUnlessEnded (evalCondition x) := by
  intro m e t h
  rw [evalCondition_run] at h
  split at h
  · next hr =>
    cases h
    obtain ⟨new, hnew⟩ := hx _ _ _ hr
    have hback := evolves_inside hnew rfl (.withShell (fun _ => rfl) (fun _ => rfl) fun _ => rfl)
    exact ⟨new, evolves_withShell hback (.withShell (fun _ => rfl) (fun _ => rfl) fun _ => rfl)⟩
  · next hr =>
    cases h
    obtain ⟨new, hnew⟩ := hx _ _ _ hr
    have hback := evolves_inside hnew rfl (.withShell (fun _ => rfl) (fun _ => rfl) fun _ => rfl)
    exact ⟨_, hback.trans (.note rfl rfl rfl)⟩
  · cases h
    trivial
  · cases h

theorem keeps_tested (bang : Bool) (x : ShellM W ExitStatus) (hx : Keeps EvolvesUnlessEnded x) :
    Keeps EvolvesUnlessEnded (withTested bang x) := by
  intro m e t h
  rw [withTested_run] at h
  cases bang with
  | false =>
    simp only [Bool.false_eq_true, if_false] at h
    split at h
    · cases h
      trivial
    · next hr =>
      cases h
      exact evolves_mono (hx _ _ _ hr) fun new hnew =>
        ⟨new, evolves_withShell hnew (.withShell (fun _ => rfl) (fun _ => rfl) fun _ => rfl)⟩
    · cases h
  | true =>
    simp only [if_true] at h
    split at h
    · cases h
      trivial
    · next hr =>
      cases h
      exact evolves_mono (hx _ _ _ hr) fun new hnew => ⟨new, evolves_withShell
        (evolves_inside hnew rfl (.withShell (fun _ => rfl) (fun _ => rfl) fun _ => rfl))
        (.withShell (fun _ => rfl) (fun _ => rfl) fun _ => rfl)⟩
    · cases h

theorem keeps_placement (f : PlacementContext → PlacementContext) (x : ShellM W ExitStatus)
    (hx : Keeps EvolvesUnlessEnded x) : Keeps EvolvesUnlessEnded (withPlacement f x) := by
  intro m e t h
  rw [withPlacement_run] at h
  split at h
  · cases h
    trivial
  · next hr =>
    cases h
    exact evolves_mono (hx _ _ _ hr) fun new hnew =>
      ⟨new, hnew.history, hnew.frames, hnew.inner, rfl, hnew.loops, hnew.depth, hnew.scopes⟩
  · cases h

theorem keeps_loop (out : Outside W) (rounds : ShellM W LoopEnd)
    (hrounds : Keeps EvolvesUnlessEnded (rounds >>= fun e => Process.ofExcept e.result)) :
    Keeps EvolvesUnlessEnded (inLoop out rounds) := by
  -- what the rounds do to the context does not depend on how they end
  have hx : Keeps EvolvesUnlessEnded rounds := by
    intro m e t h
    cases e with
    | quit q => trivial
    | error err => exact hrounds _ _ _ (bind_error h)
    | ok loop_end =>
      cases loop_end <;> exact hrounds _ _ _ (bind_ok h)
  intro m e t h
  have hleft {u : Machine W} (new : List Entry) (hnew : Evolves ((m.withShell fun sh =>
      { sh with loop_depth := sh.loop_depth + 1 }).inside .loop) u new) :
      Evolves m ((u.backIn m.frames).withShell fun sh =>
        { sh with loop_depth := sh.loop_depth - 1 }) new := by
    have hback := hnew.backIn (m := m.withShell _) rfl
    refine ⟨hback.history, rfl, hback.inner, hback.placement, ?_, hback.depth, hback.scopes⟩
    have hloops : u.shell.loop_depth = m.shell.loop_depth + 1 + breaks .loop new := hnew.loops
    change u.shell.loop_depth - 1 = _
    omega
  have hstuck {u : Machine W} (new : List Entry) (err : ShellError) (hnew : Evolves ((m.withShell
      fun sh => { sh with loop_depth := sh.loop_depth + 1 }).inside .loop) u new) :
      Evolves m ((u.backIn m.frames).note (.broke .loop err))
        (new ++ [⟨m.frames, .broke .loop err⟩]) := by
    have hback := hnew.backIn (m := m.withShell _) rfl
    have hloops : u.shell.loop_depth = m.shell.loop_depth + 1 + breaks .loop new := hnew.loops
    have hdepth := hback.depth
    refine ⟨?_, rfl, ?_, hback.placement, ?_, ?_, ?_⟩
    · exact (congrArg (· ++ _) hback.history).trans (append_assoc _ _ _)
    · intro entry hentry
      rcases mem_append.mp hentry with hentry | hentry
      · exact hback.inner entry hentry
      · rw [mem_singleton.mp hentry]
    · change u.shell.loop_depth = _
      rw [hloops, breaks_append]
      exact Nat.add_right_comm _ _ _
    · rw [breaks_append]
      exact hdepth
    · intro hzero
      rw [breaks_append] at hzero
      rw [localsAt_append]
      exact (hback.scopes (Nat.add_eq_zero_iff.mp hzero).1).trans
        (congrArg (saveIn · _) (append_nil _).symm)
  rw [inLoop_run] at h
  split at h
  · next hr =>
    cases h
    obtain ⟨new, hnew⟩ := hx _ _ _ hr
    exact ⟨new, hleft new hnew⟩
  · next hr =>
    cases h
    obtain ⟨new, hnew⟩ := hx _ _ _ hr
    exact ⟨new, hleft new hnew⟩
  · next msg _ hr =>
    obtain ⟨new, hnew⟩ := hx _ _ _ hr
    have hmsg : Keeps (always EvolvesSome)
        (do errMsg out msg; return ExitStatus.FAILURE : ShellM W ExitStatus) :=
      .bind (Plain.keeps_errMsg out msg) fun _ => .pure _
    obtain ⟨rest, hrest⟩ := hmsg _ _ _ h
    exact evolves_of_ok ⟨_, (hstuck new _ hnew).trans hrest⟩
  · next err _ hr =>
    cases h
    obtain ⟨new, hnew⟩ := hx _ _ _ hr
    exact ⟨_, hstuck new err hnew⟩
  · cases h
    trivial
  · cases h

theorem Evolves.afterCall
    (h : Evolves ((m.withShell fun sh => sh.enterCall args).inside (.call (args.head?.getD []))) u
      new) :
    Evolves m ((u.backIn m.frames).withShell fun sh =>
      { sh with vars := { sh.vars.popScope with positional := m.shell.vars.positional } })
      new := by
  have hinside : callDepth ((m.withShell fun sh => sh.enterCall args).inside
      (.call (args.head?.getD []))).frames = callDepth m.frames + 1 := callDepth_call _ _
  have hinner (e : Entry) (he : e ∈ new) : callDepth m.frames < callDepth e.frames := by
    have hle := h.inner e he
    rw [hinside] at hle
    exact hle
  have hdepth : u.shell.vars.scopes.length =
      m.shell.vars.scopes.length + 1 + breaks .call new := h.depth
  have hpop (v : Variables) : v.popScope.scopes = v.scopes.tail := by
    unfold Variables.popScope
    cases hscopes : v.scopes with
    | nil => exact hscopes
    | cons scope scopes => rfl
  refine ⟨h.history, rfl, fun e he => Nat.le_of_lt (hinner e he), h.placement, h.loops, ?_, ?_⟩
  · change u.shell.vars.popScope.scopes.length = _
    rw [hpop, List.length_tail, hdepth]
    omega
  · intro hzero
    have hscopes : u.shell.vars.scopes =
        saveIn (localsAt (callDepth m.frames + 1) new) (⟨[]⟩ :: m.shell.vars.scopes) := by
      rw [← hinside]
      exact h.scopes hzero
    change u.shell.vars.popScope.scopes = _
    rw [hpop, hscopes, localsAt_eq_nil hinner, saveIn_nil]
    rfl

/-- A call whose preparation fails: its scope stays. -/
theorem Evolves.brokeCall (e : ShellError)
    (h : Evolves ((m.withShell fun sh => sh.enterCall args).inside (.call (args.head?.getD []))) u
      new) :
    Evolves m ((u.backIn m.frames).note (.broke .call e))
      (new ++ [⟨m.frames, .broke .call e⟩]) := by
  have hdepth : u.shell.vars.scopes.length =
      m.shell.vars.scopes.length + 1 + breaks .call new := h.depth
  refine ⟨?_, rfl, ?_, h.placement, ?_, ?_, ?_⟩
  · exact (congrArg (· ++ _) h.history).trans (append_assoc _ _ _)
  · intro entry hentry
    rcases mem_append.mp hentry with hentry | hentry
    · have hle : callDepth (.call (args.head?.getD []) :: m.frames) ≤ callDepth entry.frames :=
        h.inner entry hentry
      rw [callDepth_call] at hle
      exact Nat.le_of_lt hle
    · rw [mem_singleton.mp hentry]
  · rw [breaks_append]
    exact h.loops
  · change u.shell.vars.scopes.length = _
    rw [hdepth, breaks_append]
    exact Nat.add_right_comm _ _ _
  · intro hzero
    rw [breaks_append] at hzero
    exact absurd (Nat.add_eq_zero_iff.mp hzero).2 Nat.one_ne_zero

/-- What a computation does to the context does not depend on the result it returns. -/
theorem keeps_ofResult {x : ShellM W (Except ShellError ExitStatus)}
    (h : Keeps EvolvesUnlessEnded (x >>= Process.ofExcept)) : Keeps EvolvesUnlessEnded x := by
  intro m e t hx
  cases e with
  | quit q => trivial
  | error err => exact h _ _ _ (bind_error hx)
  | ok result => cases result <;> exact h _ _ _ (bind_ok hx)

theorem keeps_call (args : List Text) (x : ShellM W (Except ShellError ExitStatus))
    (hcall : Keeps EvolvesUnlessEnded (x >>= Process.ofExcept)) :
    Keeps EvolvesUnlessEnded (inCall args x) := by
  have hx := keeps_ofResult hcall
  intro m e t h
  rw [inCall_run] at h
  split at h
  · next result _ hr =>
    obtain ⟨new, hnew⟩ := hx _ _ _ hr
    cases result <;> cases h <;> exact ⟨new, hnew.afterCall⟩
  · next err _ hr =>
    cases h
    obtain ⟨new, hnew⟩ := hx _ _ _ hr
    exact ⟨_, hnew.brokeCall err⟩
  · cases h
    trivial
  · cases h

theorem keeps_leaf (cmd : Command) (status : ExitStatus) :
    Keeps EvolvesUnlessEnded (checkStatus cmd status : ShellM W ExitStatus) := by
  intro m e t h
  rw [checkStatus_run] at h
  have hset : Evolves m (m.withShell fun sh => { sh with exit_status := status }) [] :=
    .withShell (fun _ => rfl) (fun _ => rfl) fun _ => rfl
  cases h
  refine evolves_of_ok ?_
  cases cmd.isLeaf with
  | false => exact ⟨_, hset⟩
  | true => exact ⟨_, hset.trans (.note rfl rfl rfl)⟩

theorem keeps_fork (out : Outside W) (kind : ChildKind) (bodies : List (ShellM W ExitStatus)) :
    Keeps (always EvolvesSome) (fork out kind bodies) := by
  have hsame {m t : Machine W} (hshell : t.shell = m.shell) (hframes : t.frames = m.frames)
      (hhistory : t.history = m.history) : EvolvesSome m t :=
    ⟨[], by rw [hhistory, append_nil], hframes, nofun, by rw [hshell], by rw [hshell]; rfl,
      by rw [hshell]; rfl, fun _ => by rw [hshell]; exact (saveIn_nil _).symm⟩
  intro m e t h
  unfold fork at h
  split at h
  · cases h
    exact hsame rfl rfl rfl
  · obtain ⟨children, -, hdone⟩ := Option.map_eq_some_iff.mp h
    cases hdone
    exact hsame rfl rfl rfl

/-- Nothing is said of what a child does to its own context. -/
def Anything : Machine W → Machine W → Prop := fun _ _ => True

theorem constructs_evolve (out : Outside W) :
    Constructs out EvolvesSome Anything EvolvesUnlessEnded where
  plain _ _ h := h
  child _ _ _ := trivial
  child_after _ _ _ _ _ := trivial
  forgets _ _ _ _ h := h
  restores _ _ _ _ h hquiet := evolves_mono h fun _ hnew =>
    ⟨_, hnew.trans (.quiet hquiet)⟩
  simple := keeps_simple
  condition := keeps_condition
  tested := keeps_tested
  placement := keeps_placement
  loop := keeps_loop out
  call := keeps_call
  leaf := keeps_leaf
  forks kind bodies _ := keeps_fork out kind bodies
  ends _ _ _ _ _ _ := fun _ _ _ _ => trivial

theorem keeps_evolves (out : Outside W) (n : Nat) (cmd : Command) :
    Keeps EvolvesUnlessEnded (evalCommand out n cmd) :=
  (constructs_evolve out).lawful.keeps_evalCommand n cmd

/-! ## What evaluation restores -/

/-- The loop depth, the number of scopes and the placement context are as before. -/
structure Restored (m t : Machine W) : Prop where
  loops : t.shell.loop_depth = m.shell.loop_depth
  depth : t.shell.vars.scopes.length = m.shell.vars.scopes.length
  placement : t.shell.placement_context = m.shell.placement_context

/-- A construct is left without its cleanup. -/
def Step.leaks (step : Step) : Prop := step.breaks .loop = true ∨ step.breaks .call = true

theorem Evolves.restored_iff (h : Evolves m t new) : Restored m t ↔ ∀ e ∈ new, ¬ e.step.leaks := by
  have hzero (p : Part) : breaks p new = 0 ↔ ∀ e ∈ new, ¬ e.step.breaks p = true :=
    countP_eq_zero
  constructor
  · intro hr e he hleaks
    have hloops := hr.loops
    have hdepth := hr.depth
    rw [h.loops, Nat.add_eq_left, hzero] at hloops
    rw [h.depth, Nat.add_eq_left, hzero] at hdepth
    exact hleaks.elim (hloops e he) (hdepth e he)
  · intro hnone
    refine ⟨?_, ?_, h.placement⟩
    · rw [h.loops, (hzero .loop).mpr fun e he hb => hnone e he (.inl hb), Nat.add_zero]
    · rw [h.depth, (hzero .call).mpr fun e he hb => hnone e he (.inr hb), Nat.add_zero]

theorem lookup_restored (saved : List SavedVar) (vars : AList fun _ : Text => Var) (name : Text) :
    (saved.reverse.foldl Variables.restoreVar vars).lookup name =
      match saved.find? fun s => s.name == name with
      | some s => s.previous
      | none => vars.lookup name := by
  induction saved with
  | nil => rfl
  | cons s saved ih =>
    rw [reverse_cons, foldl_append, foldl_cons, foldl_nil, find?_cons,
      Variables.restoreVar]
    by_cases hname : s.name = name
    · subst hname
      cases hprevious : s.previous <;> simp [hprevious]
    · have hother : name ≠ s.name := fun h => hname h.symm
      have hfalse : (s.name == name) = false := by simp [hname]
      rw [hfalse]
      cases s.previous with
      | none => exact (AList.lookup_erase_ne hother).trans ih
      | some var => exact (AList.lookup_insert_ne hother).trans ih

/-- What a call has to restore besides the context: the caller's positional
parameters, and what its variables were before it made them local. -/
structure CallRestored (m t : Machine W) (new : List Entry) : Prop extends Restored m t where
  positional : t.shell.vars.positional = m.shell.vars.positional
  locals : ∀ saved, ∀ name, (localsAt (callDepth m.frames + 1) new).find? (fun s => s.name == name) =
    some saved → t.shell.vars.binding name = saved.previous

theorem Evolves.callRestored
    (h : Evolves ((m.withShell fun sh => sh.enterCall args).inside (.call (args.head?.getD []))) u
      new) (hnone : ∀ e ∈ new, ¬ e.step.leaks) :
    CallRestored m ((u.backIn m.frames).withShell fun sh =>
      { sh with vars := { sh.vars.popScope with positional := m.shell.vars.positional } }) new := by
  refine { h.afterCall.restored_iff.mpr hnone with positional := rfl, locals := ?_ }
  intro saved name hsaved
  have hzero : breaks .call new = 0 := countP_eq_zero.mpr fun e he hb => hnone e he (.inr hb)
  have hscopes : u.shell.vars.scopes =
      ⟨localsAt (callDepth m.frames + 1) new⟩ :: m.shell.vars.scopes := by
    rw [h.scopes hzero]
    exact congrArg (fun d => saveIn (localsAt d new) (⟨[]⟩ :: m.shell.vars.scopes))
      (callDepth_call _ _)
  change (Variables.popScope u.shell.vars).binding name = _
  unfold Variables.popScope
  rw [hscopes]
  refine (lookup_restored _ _ name).trans ?_
  rw [hsaved]

theorem inCall_restored_iff {x : ShellM W (Except ShellError ExitStatus)}
    {e : Ending ExitStatus ShellError ExitStatus} (hx : Keeps EvolvesUnlessEnded x)
    (h : inCall args x m = some (e, t)) (hlives : ∀ q, e ≠ .quit q) :
    ∃ new, t.history = m.history ++ new ∧
      (CallRestored m t new ↔ ∀ x ∈ new, ¬ x.step.leaks) := by
  rw [inCall_run] at h
  cases hr : x ((m.withShell fun sh => sh.enterCall args).inside (.call (args.head?.getD []))) with
  | none => rw [hr] at h; cases h
  | some p =>
    obtain ⟨ending, u⟩ := p
    rw [hr] at h
    have hu := hx _ _ _ hr
    cases ending with
    | quit q =>
      cases h
      exact absurd rfl (hlives q)
    | error err =>
      cases h
      obtain ⟨new, hnew⟩ := hu
      have hbroke := hnew.brokeCall err
      exact ⟨_, hbroke.history, fun hr => hbroke.restored_iff.mp hr.toRestored, fun hnone =>
        absurd (.inr rfl) (hnone _ (mem_append_right _ mem_cons_self))⟩
    | ok result =>
      obtain ⟨new, hnew⟩ := hu
      have hafter := hnew.afterCall
      refine ⟨new, ?_⟩
      cases result <;> cases h <;>
        exact ⟨hafter.history, fun hr => hafter.restored_iff.mp hr.toRestored,
          hnew.callRestored⟩

/-- **The context afterwards.** An evaluation of a command that does not end the
process restores the loop depth, the number of scopes and the placement context
exactly when no loop is left by an error of its own (in its head, its condition or
the assignment of its variable) and no function call fails in its preparation; and
then, and only then, a function call also restores the positional parameters and
the binding of every variable it makes local. -/
theorem evaluation_restores_iff (out : Outside W) (n : Nat) :
    (∀ cmd m e t, evalCommand out n cmd m = some (e, t) → (∀ q, e ≠ .quit q) →
      ∃ new, t.history = m.history ++ new ∧ (Restored m t ↔ ∀ x ∈ new, ¬ x.step.leaks)) ∧
    ∀ k body args assigns m e t,
      evalFunction out (evalCommand out n) k body args assigns m = some (e, t) →
      (∀ q, e ≠ .quit q) → ∃ new, t.history = m.history ++ new ∧
        (CallRestored m t new ↔ ∀ x ∈ new, ¬ x.step.leaks) := by
  constructor
  · intro cmd m e t h hlives
    have hevolves := keeps_evolves out n cmd m e t h
    cases e with
    | quit q => exact absurd rfl (hlives q)
    | ok _ | error _ =>
      obtain ⟨new, hnew⟩ := hevolves
      exact ⟨new, hnew.history, hnew.restored_iff⟩
  · intro k body args assigns m e t h hlives
    have hbody := (constructs_evolve out).keeps_callBody (keeps_evolves out n) k body args assigns
    exact inCall_restored_iff (keeps_ofResult hbody) h hlives

/-- `while break; do :; done` -/
def brokenWhile : Command :=
  .While (.ofWords ["break".toList]) (.ofWords [":".toList])

theorem run_brokenWhile :
    (evalCommand .idle 20 brokenWhile .idle).map (fun r => (r.1, r.2.shell.loop_depth)) =
      some (.error (.Break 1), 1) := by
  decide

/-- A `break` in a condition leaves its loop counted for good. -/
theorem evaluation_does_not_restore :
    ¬ ∀ (out : Outside Unit) n cmd m e t, evalCommand out n cmd m = some (e, t) →
      (∀ q, e ≠ .quit q) → Restored m t := by
  intro hclaim
  obtain ⟨⟨e, t⟩, hrun, hmap⟩ := Option.map_eq_some_iff.mp run_brokenWhile
  injection hmap with he hdepth
  have hlives : ∀ q, e ≠ .quit q := by
    intro q hq
    rw [hq] at he
    cases he
  have hloops := (hclaim _ _ _ _ _ _ hrun hlives).loops
  rw [show t.shell.loop_depth = 1 from hdepth] at hloops
  cases hloops

theorem evaluation_restores_iff_brokenWhile :
    ∃ e t new, evalCommand .idle 20 brokenWhile .idle = some (e, t) ∧ t.history = new ∧
      (Restored .idle t ↔ ∀ x ∈ new, ¬ x.step.leaks) := by
  obtain ⟨⟨e, t⟩, hrun, hmap⟩ := Option.map_eq_some_iff.mp run_brokenWhile
  injection hmap with he hdepth
  have hlives : ∀ q, e ≠ .quit q := by
    intro q hq
    rw [hq] at he
    cases he
  obtain ⟨new, hnew, hiff⟩ := (evaluation_restores_iff .idle 20).1 _ _ _ _ hrun hlives
  exact ⟨e, t, new, hrun, hnew, hiff⟩

end Ish.Epsh
