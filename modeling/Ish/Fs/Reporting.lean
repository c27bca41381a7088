import Ish.Fs.Operands
import Mathlib.Data.List.Basic

/-!
# The outcomes of the operands

An outcome is held back while members of its hardlink group are still to come and
the flags of the group are not set. The invariant says which outcomes are held
after so many turns: with the last turn, none is.
-/

namespace Ish.Fs

open List

variable {operands : List PlannedOperand} {run : Run} {index i j k : Nat} {operand : PlannedOperand}

/-! ## What a run is to be -/

/-- The flags of the group are to be set, or it cannot be told. -/
def Answers.pending (a : Answers) : Bool :=
  match a.pending_flags with
  | .ok pending => pending
  | .error _ => true

/-- An operand that counts stands at `i`, with an identity. -/
def Counts (operands : List PlannedOperand) (i : Nat) (identity : Identity) : Prop :=
  ∃ operand, operands[i]? = some operand ∧ operand.counts = true ∧ operand.identity = identity

/-- The operand at `i` has an identity. -/
def Names (operands : List PlannedOperand) (i : Nat) (identity : Identity) : Prop :=
  ∃ operand, operands[i]? = some operand ∧ operand.identity = identity

/-- **A regular run**: a name that does not count stands behind the members of its group, and the
members of a group are all told the same about its flags. -/
structure Regular (operands : List PlannedOperand) (run : Run) : Prop where
  skipped_last : ∀ i j identity, i < j → Names operands i identity → Counts operands j identity →
    Counts operands i identity
  agreed : ∀ i j identity, Counts operands i identity → Counts operands j identity →
    (run.answers i).pending = (run.answers j).pending

theorem Counts.names (h : Counts operands i identity) :
    Names operands i identity := by
  obtain ⟨operand, hoperand, -, hidentity⟩ := h
  exact ⟨operand, hoperand, hidentity⟩

theorem Counts.lt (h : Counts operands i identity) : i < operands.length := by
  obtain ⟨operand, hoperand, -⟩ := h
  exact (List.getElem?_eq_some_iff.mp hoperand).1

theorem Names.unique {identity other} (h : Names operands i identity)
    (h' : Names operands i other) : identity = other := by
  obtain ⟨operand, hoperand, rfl⟩ := h
  obtain ⟨operand', hoperand', rfl⟩ := h'
  rw [hoperand, Option.some.injEq] at hoperand'
  exact congrArg PlannedOperand.identity hoperand'

/-- The operand at `i` is executed. -/
def Executed (run : Run) (i : Nat) : Prop := cancelledAt run.cancel (2 * i) = false

theorem Executed.of_le (h : Executed run j) (hle : i ≤ j) : Executed run i := by
  rw [Executed, cancelledAt] at h ⊢
  cases hcancel : run.cancel with
  | none => rfl
  | some time =>
    rw [hcancel, Option.any_some, decide_eq_false_iff_not] at h
    rw [Option.any_some, decide_eq_false_iff_not]
    omega

/-- After `k` turns, the outcome of the operand at `i` is held back for a member of its group. -/
def Held (operands : List PlannedOperand) (run : Run) (i k : Nat) : Prop :=
  Executed run i ∧ (run.answers i).pending = true ∧
    ∃ identity, Names operands i identity ∧ ∃ j, k ≤ j ∧ Counts operands j identity

theorem Held.of_succ (h : Held operands run i (k + 1)) : Held operands run i k := by
  obtain ⟨hexecuted, hpending, identity, hi, j, hj, hcounts⟩ := h
  exact ⟨hexecuted, hpending, identity, hi, j, Nat.le_of_succ_le hj, hcounts⟩

/-! ## Steps -/

def Step.outcome : Step → Option OperandOutcome
  | .Emit (.Operand outcome) => some outcome
  | _ => none

/-- The outcomes that were emitted. -/
def outcomesOf (steps : List Step) : List OperandOutcome := steps.filterMap Step.outcome

/-- A step that ends nothing. -/
def Step.Quiet (step : Step) : Prop :=
  ∃ notice : Notice, step = .Emit notice.event

theorem outcomesOf_append (steps steps' : List Step) :
    outcomesOf (steps ++ steps') = outcomesOf steps ++ outcomesOf steps' :=
  filterMap_append

theorem outcomesOf_quiet (h : ∀ step ∈ steps, step.Quiet) :
    outcomesOf steps = [] := by
  rw [outcomesOf, filterMap_eq_nil_iff]
  intro step hstep
  obtain ⟨notice, rfl⟩ := h step hstep
  cases notice <;> rfl

/-- What has to stand in front of a step. -/
def InPlace (operands : List PlannedOperand) (run : Run) (before : List Step) : Step → Prop
  | .Emit (.Operand _) => ∀ identity, Counts operands (outcomesOf before).length identity →
      Executed run (outcomesOf before).length →
      (run.answers (outcomesOf before).length).pending = true →
      ∀ j, Counts operands j identity → .Ended j ∈ before
  | .Finalize identity => (∀ j, Counts operands j identity → .Ended j ∈ before) ∧
      (.Finalize identity ∈ before ∨ ∀ i, Counts operands i identity →
        (run.answers i).pending = true → (outcomesOf before).length ≤ i)
  | _ => True

/-- Each step stands behind what it needs. -/
def Sound (operands : List PlannedOperand) (run : Run) (steps : List Step) : Prop :=
  ∀ before step behind, steps = before ++ step :: behind → InPlace operands run before step

theorem Sound.nil : Sound operands run [] := by
  intro before step behind h
  cases before <;> cases h

theorem Sound.snoc (h : Sound operands run steps)
    (hplace : InPlace operands run steps step) : Sound operands run (steps ++ [step]) := by
  intro before step' behind heq
  rcases eq_nil_or_concat' behind with rfl | ⟨rest, last, rfl⟩
  · obtain ⟨rfl, hlast⟩ := append_inj' heq rfl
    obtain rfl : step = step' := by simpa using hlast
    exact hplace
  · rw [← cons_append, ← append_assoc] at heq
    exact h before step' rest (append_inj' heq rfl).1

theorem Sound.quiet (h : Sound operands run steps)
    (hquiet : ∀ step ∈ extra, step.Quiet) : Sound operands run (steps ++ extra) := by
  induction extra generalizing steps with
  | nil => rwa [append_nil]
  | cons step extra ih =>
    obtain ⟨notice, rfl⟩ := hquiet step mem_cons_self
    rw [← singleton_append, ← append_assoc]
    refine ih (h.snoc ?_) fun step hstep => hquiet step (mem_cons_of_mem _ hstep)
    cases notice <;> trivial

/-! ## What a turn does -/

/-- The members, the outcomes and what is emitted of them are left alone. -/
structure Quietly (s s' : Loop) : Prop where
  members : s'.members = s.members
  outcomes : s'.outcomes = s.outcomes
  ready : s'.ready = s.ready
  next_outcome : s'.next_outcome = s.next_outcome
  steps : ∃ extra, s'.steps = s.steps ++ extra ∧ ∀ step ∈ extra, step.Quiet

namespace Quietly

variable {s s' s'' : Loop}

theorem refl (s : Loop) : Quietly s s :=
  ⟨rfl, rfl, rfl, rfl, [], (append_nil _).symm, nofun⟩

theorem trans (h : Quietly s s') (h' : Quietly s' s'') : Quietly s s'' := by
  obtain ⟨extra, hextra, hquiet⟩ := h.steps
  obtain ⟨extra', hextra', hquiet'⟩ := h'.steps
  refine ⟨h'.members.trans h.members, h'.outcomes.trans h.outcomes, h'.ready.trans h.ready,
    h'.next_outcome.trans h.next_outcome, extra ++ extra', ?_, fun step hstep => ?_⟩
  · rw [hextra', hextra, append_assoc]
  · exact (mem_append.mp hstep).elim (hquiet step) (hquiet' step)

end Quietly

namespace Loop

theorem quietly_update (s : Loop) (change : Progress → Progress) : Quietly s (s.update change) :=
  ⟨rfl, rfl, rfl, rfl, _, rfl, fun _ hstep => ⟨.Progress _, mem_singleton.mp hstep⟩⟩

theorem quietly_diagnose (s : Loop) (operand : PlannedOperand) (message : String) :
    Quietly s (s.diagnose operand message) :=
  ⟨rfl, rfl, rfl, rfl, _, rfl, fun _ hstep => ⟨.Diagnostic _, mem_singleton.mp hstep⟩⟩

theorem quietly_execute (s : Loop) (a : Answers) (operand : PlannedOperand) :
    Quietly s (s.execute_operand a operand).2 := by
  rw [execute_operand]
  split
  · exact .refl s
  · split
    · exact quietly_update s fun progress =>
        { progress with skipped_files := progress.skipped_files + 1 }
    · split
      · exact .refl s
      · refine ⟨rfl, rfl, rfl, rfl, _, rfl, fun step hstep => ?_⟩
        obtain ⟨notice, -, rfl⟩ := mem_map.mp hstep
        exact ⟨notice, rfl⟩

theorem quietly_stateOf (s : Loop) (operand : PlannedOperand) (cancelled : Bool)
    (result : Except Failure OperandState) : Quietly s (s.stateOf operand cancelled result).2 := by
  cases result with
  | ok state => exact .refl s
  | error failure => exact (s.quietly_update _).trans (quietly_diagnose _ operand failure.error)

theorem readPending_spec (s : Loop) (a : Answers) (operand : PlannedOperand) :
    (s.readPending a operand).1 = a.pending ∧ Quietly s (s.readPending a operand).2 := by
  rw [readPending, Answers.pending]
  cases a.pending_flags with
  | ok pending => exact ⟨rfl, .refl s⟩
  | error message => exact ⟨rfl, s.quietly_diagnose operand message⟩

/-- Counting down. -/
theorem consume_spec (s : Loop) (identity : Identity) :
    (s.consume_hardlink_member identity).1 = s.hardlink_members_remaining identity - 1 ∧
      (∀ other, (s.consume_hardlink_member identity).2.hardlink_members_remaining other =
        if other = identity then s.hardlink_members_remaining other - 1
        else s.hardlink_members_remaining other) ∧
      { (s.consume_hardlink_member identity).2 with members := s.members } = s := by
  unfold consume_hardlink_member hardlink_members_remaining
  cases hmembers : s.members identity with
  | none | some remaining =>
    refine ⟨rfl, fun other => ?_, rfl⟩
    dsimp only
    split
    · rename_i heq
      rw [heq, hmembers]
      rfl
    · rfl

theorem isSettled_iff {s : Loop} :
    s.isSettled operands identity index member = true ↔
      member ≤ index ∧ Names operands member identity ∧ (s.outcomes[member]?.join).isSome := by
  rw [isSettled, decide_eq_true_eq, Option.map_eq_some_iff]
  rfl

theorem settle_spec (s : Loop) (operands : List PlannedOperand) (identity : Identity) (index : Nat)
    (change : OperandState → OperandState) :
    let s' := s.settle operands identity index change
    s'.members = s.members ∧ s'.next_outcome = s.next_outcome ∧ s'.steps = s.steps ∧
      s'.outcomes.length = s.outcomes.length ∧ s'.ready.length = s.ready.length ∧
      (∀ i : Nat, (s'.outcomes[i]?.join).isSome = (s.outcomes[i]?.join).isSome) ∧
      ∀ i : Nat, s'.ready[i]? = some true ↔ s.ready[i]? = some true ∨
        (i < s.ready.length ∧ s.isSettled operands identity index i = true) := by
  refine ⟨rfl, rfl, rfl, length_mapIdx, length_mapIdx, fun i => ?_, fun i => ?_⟩
  · simp only [settle, getElem?_mapIdx]
    cases s.outcomes[i]? with
    | none => rfl
    | some outcome =>
      rw [Option.map_some, Option.join_some, Option.join_some]
      split
      · rw [Option.isSome_map]
      · rfl
  · simp only [settle, getElem?_mapIdx]
    cases hready : s.ready[i]? with
    | none =>
      have hge := List.getElem?_eq_none_iff.mp hready
      simp [Nat.not_lt.mpr hge]
    | some ready =>
      have hlt := (List.getElem?_eq_some_iff.mp hready).1
      simp only [Option.map_some, Option.some.injEq, hlt, true_and]
      split
      · rename_i hsettled
        simp [hsettled]
      · rename_i hsettled
        simp [hsettled]

end Loop

/-- What a turn does before it reports: the operand at `k` has its state, its group is counted
down, and it is ready, or else the whole group is when that is at its end. -/
structure Taken (operands : List PlannedOperand) (k : Nat) (operand : PlannedOperand)
    (executed pending : Bool) (s s' : Loop) : Prop where
  members : ∀ other, s'.hardlink_members_remaining other =
    if other = operand.identity then s.hardlink_members_remaining other - 1
    else s.hardlink_members_remaining other
  length_outcomes : s'.outcomes.length = s.outcomes.length
  length_ready : s'.ready.length = s.ready.length
  outcomes : ∀ i : Nat, i < s.outcomes.length →
    ((s'.outcomes[i]?.join).isSome = true ↔ i = k ∨ (s.outcomes[i]?.join).isSome = true)
  ready : ∀ i : Nat, i < s.ready.length → (s'.ready[i]? = some true ↔ s.ready[i]? = some true ∨
    (i = k ∧ (executed && pending) = false) ∨
    (pending = true ∧ s'.hardlink_members_remaining operand.identity = 0 ∧ i ≤ k ∧
      Names operands i operand.identity ∧ (s'.outcomes[i]?.join).isSome = true))
  next_outcome : s'.next_outcome = s.next_outcome
  steps : ∃ first second : List Step, (∀ step ∈ first, step.Quiet) ∧ (∀ step ∈ second, step.Quiet) ∧
    ((executed && pending) = true ∧ s'.hardlink_members_remaining operand.identity = 0 ∧
        (∃ third : List Step, (∀ step ∈ third, step.Quiet) ∧ s'.steps =
          s.steps ++ first ++ [.Ended k] ++ second ++ [.Finalize operand.identity] ++ third) ∨
      ((executed && pending) = true → s'.hardlink_members_remaining operand.identity ≠ 0) ∧
        s'.steps = s.steps ++ first ++ [.Ended k] ++ second)

namespace Loop

theorem counted_spec (s : Loop) (k : Nat) (operand : PlannedOperand)
    (state : OperandState) (hquiet : Quietly s s₁) (a : Answers) :
    let (remaining, s₂) := (s₁.finish k state).consume_hardlink_member operand.identity
    let s₃ := (s₂.readPending a operand).2
    (∀ other, s₃.hardlink_members_remaining other =
      if other = operand.identity then s.hardlink_members_remaining other - 1
      else s.hardlink_members_remaining other) ∧
    remaining = s₃.hardlink_members_remaining operand.identity ∧
    s₃.outcomes = s.outcomes.set k (some state) ∧ s₃.ready = s.ready ∧
    s₃.next_outcome = s.next_outcome ∧
    ∃ first second : List Step, (∀ step ∈ first, step.Quiet) ∧ (∀ step ∈ second, step.Quiet) ∧
      s₃.steps = s.steps ++ first ++ [.Ended k] ++ second := by
  obtain ⟨hremaining, hmembers, hsame⟩ := (s₁.finish k state).consume_spec operand.identity
  generalize (s₁.finish k state).consume_hardlink_member operand.identity = consumed at *
  obtain ⟨remaining, s₂⟩ := consumed
  dsimp only at *
  obtain ⟨-, hread⟩ := s₂.readPending_spec a operand
  generalize (s₂.readPending a operand).2 = s₃ at *
  obtain ⟨first, hfirst, hquiet₁⟩ := hquiet.steps
  obtain ⟨second, hsecond, hquiet₂⟩ := hread.steps
  have hfields := fun other => congrArg (·.getD 0) (congrFun hread.members other)
  have hbefore : ∀ other, (s₁.finish k state).hardlink_members_remaining other =
      s.hardlink_members_remaining other := fun other =>
    congrArg (·.getD 0) (congrFun hquiet.members other)
  have hafter : ∀ other, s₃.hardlink_members_remaining other =
      if other = operand.identity then s.hardlink_members_remaining other - 1
      else s.hardlink_members_remaining other := by
    intro other
    rw [← hbefore other, ← hmembers other]
    exact hfields other
  have houtcomes := congrArg Loop.outcomes hsame
  have hready := congrArg Loop.ready hsame
  have hnext := congrArg Loop.next_outcome hsame
  have hsteps := congrArg Loop.steps hsame
  refine ⟨hafter, ?_, ?_, ?_, ?_, first, second, hquiet₁, hquiet₂, ?_⟩
  · rw [hafter, if_pos rfl, hremaining, hbefore]
  · exact hread.outcomes.trans (houtcomes.trans (congrArg (·.set k (some state)) hquiet.outcomes))
  · exact hread.ready.trans (hready.trans hquiet.ready)
  · exact hread.next_outcome.trans (hnext.trans hquiet.next_outcome)
  · rw [hsecond, ← hfirst]
    exact congrArg (· ++ second) hsteps

theorem ready_makeReady (s : Loop) (k : Nat) (hi : i < s.ready.length) :
    (s.makeReady k).ready[i]? = some true ↔ s.ready[i]? = some true ∨ i = k := by
  rw [makeReady, getElem?_set]
  split
  · rename_i heq
    subst heq
    simp [hi]
  · rename_i hne
    simp [Ne.symm hne]

theorem outcomes_set (s : Loop) (k : Nat) (state : OperandState)
    (hi : i < s.outcomes.length) :
    ((s.outcomes.set k (some state))[i]?.join).isSome = true ↔
      i = k ∨ (s.outcomes[i]?.join).isSome = true := by
  rw [getElem?_set]
  split
  · rename_i heq
    subst heq
    simp [hi]
  · rename_i hne
    simp [Ne.symm hne]

theorem cancelledTurn_taken (s : Loop) (operands : List PlannedOperand) (k : Nat) (a : Answers) (operand : PlannedOperand) :
    ∃ s', Taken operands k operand false a.pending s s' ∧
      s.cancelledTurn operands a k operand = s'.report operands operands.length := by
  have hspec := counted_spec (s.makeReady k) k operand .Cancelled (.refl _) a
  rw [cancelledTurn]
  generalize hconsumed : ((s.finish k .Cancelled).makeReady k).consume_hardlink_member
    operand.identity = consumed
  have hconsumed' : ((s.makeReady k).finish k .Cancelled).consume_hardlink_member
    operand.identity = consumed := hconsumed
  rw [hconsumed'] at hspec
  obtain ⟨remaining, s₂⟩ := consumed
  dsimp only at hspec ⊢
  have hpending := (s₂.readPending_spec a operand).1
  generalize s₂.readPending a operand = read at hspec hpending ⊢
  obtain ⟨pending, s₃⟩ := read
  dsimp only at hspec hpending ⊢
  obtain ⟨hmembers, hremaining, houtcomes, hready, hnext, first, second, hfirst, hsecond, hsteps⟩ :=
    hspec
  have hlength : s₃.ready.length = s.ready.length := by rw [hready, makeReady, length_set]
  have houtcomes' : ∀ i, i < s.outcomes.length → ((s₃.outcomes[i]?.join).isSome = true ↔
      i = k ∨ (s.outcomes[i]?.join).isSome = true) := fun i hi => houtcomes ▸ s.outcomes_set k _ hi
  have hready' : ∀ i, i < s.ready.length → (s₃.ready[i]? = some true ↔
      s.ready[i]? = some true ∨ i = k) := fun i hi => hready ▸ s.ready_makeReady k hi
  subst hpending
  split
  · rename_i hdone
    obtain ⟨hm, hn, hs, hlo, hlr, ho, hr⟩ :=
      s₃.settle_spec operands operand.identity k unfinished
    refine ⟨_, ⟨fun other => ?_, hlo.trans (by rw [houtcomes, length_set]; rfl), hlr.trans hlength,
      fun i hi => by rw [ho, houtcomes' i hi], fun i hi => ?_, hn.trans hnext, first, second, hfirst,
      hsecond, .inr ⟨nofun, hs.trans hsteps⟩⟩, rfl⟩
    · exact (congrArg (·.getD 0) (congrFun hm other)).trans (hmembers other)
    · have hzero : (s₃.settle operands operand.identity k unfinished).hardlink_members_remaining
          operand.identity = 0 :=
        (congrArg (·.getD 0) (congrFun hm _)).trans (hremaining.symm.trans hdone.1)
      rw [hr, hready' i hi, isSettled_iff, or_assoc]
      refine or_congr_right (or_congr (and_iff_left rfl).symm ?_)
      rw [ho]
      exact ⟨fun h => ⟨hdone.2, hzero, h.2⟩, fun h => ⟨hlength ▸ hi, h.2.2⟩⟩
  · rename_i hnot
    refine ⟨_, ⟨hmembers, by rw [houtcomes, length_set]; rfl, hlength, houtcomes', fun i hi => ?_,
      hnext, first, second, hfirst, hsecond, .inr ⟨nofun, hsteps⟩⟩, rfl⟩
    rw [hready' i hi]
    refine or_congr_right ⟨fun h => .inl ⟨h, rfl⟩, ?_⟩
    rintro (⟨h, -⟩ | ⟨hpending, hzero, -⟩)
    · exact h
    · exact absurd ⟨hremaining.trans hzero, hpending⟩ hnot

theorem isSettled_congr {s s' : Loop} (h : ∀ i : Nat, (s'.outcomes[i]?.join).isSome =
    (s.outcomes[i]?.join).isSome) (identity : Identity) (index i : Nat) :
    s'.isSettled operands identity index i = s.isSettled operands identity index i := by
  rw [isSettled, isSettled, h]

theorem finalize_spec (s : Loop) (operands : List PlannedOperand) (a : Answers) (operand : PlannedOperand) (k : Nat) :
    let s' := s.finalize a operands operand k
    s'.members = s.members ∧ s'.next_outcome = s.next_outcome ∧
      s'.outcomes.length = s.outcomes.length ∧ s'.ready.length = s.ready.length ∧
      (∀ i : Nat, (s'.outcomes[i]?.join).isSome = (s.outcomes[i]?.join).isSome) ∧
      (∀ i : Nat, s'.ready[i]? = some true ↔ s.ready[i]? = some true ∨
        (i < s.ready.length ∧ s.isSettled operands operand.identity k i = true)) ∧
      ∃ third : List Step, (∀ step ∈ third, step.Quiet) ∧
        s'.steps = s.steps ++ [.Finalize operand.identity] ++ third := by
  rw [finalize]
  cases a.finalized with
  | ok _ =>
    obtain ⟨hm, hn, hs, hlo, hlr, ho, hr⟩ := settle_spec
      { s with steps := s.steps ++ [.Finalize operand.identity] } operands operand.identity k id
    exact ⟨hm, hn, hlo, hlr, ho, hr, [], nofun, hs.trans (append_nil _).symm⟩
  | error message =>
    dsimp only
    have hquiet := quietly_diagnose { s with steps := s.steps ++ [.Finalize operand.identity] }
      operand message
    generalize Loop.diagnose _ operand message = s₁ at hquiet
    obtain ⟨third, hthird, hsteps⟩ := hquiet.steps
    obtain ⟨hm, hn, hs, hlo, hlr, ho, hr⟩ :=
      s₁.settle_spec operands operand.identity k unfinalized
    generalize s₁.settle operands operand.identity k unfinalized = s₂ at *
    obtain ⟨hm', hn', hs', hlo', hlr', ho', hr'⟩ :=
      s₂.settle_spec operands operand.identity k id
    have hsame : ∀ i : Nat, (s₁.outcomes[i]?.join).isSome = (s.outcomes[i]?.join).isSome :=
      fun i => by rw [hquiet.outcomes]
    refine ⟨hm'.trans (hm.trans hquiet.members), hn'.trans (hn.trans hquiet.next_outcome),
      hlo'.trans (hlo.trans (congrArg List.length hquiet.outcomes)),
      hlr'.trans (hlr.trans (congrArg List.length hquiet.ready)),
      fun i => (ho' i).trans ((ho i).trans (hsame i)), fun i => ?_, third, hsteps,
      hs'.trans (hs.trans hthird)⟩
    rw [hr', hr, hlr, isSettled_congr ho, isSettled_congr hsame, hquiet.ready, or_assoc, or_self]

theorem executedTurn_taken (s : Loop) (operands : List PlannedOperand) (k : Nat) (a : Answers) (cancelled : Bool) (operand : PlannedOperand) :
    ∃ s' progress, Taken operands k operand true a.pending s s' ∧
      s.executedTurn operands a cancelled k operand =
        (s'.report operands operands.length).emit (.Progress progress) := by
  rw [executedTurn]
  have hexecute := s.quietly_execute a operand
  generalize s.execute_operand a operand = executed at hexecute ⊢
  obtain ⟨result, s₀⟩ := executed
  dsimp only at hexecute ⊢
  have hstate := s₀.quietly_stateOf operand cancelled result
  generalize s₀.stateOf operand cancelled result = state at hstate ⊢
  obtain ⟨state, s₁⟩ := state
  have hspec := counted_spec s k operand state (hexecute.trans hstate) a
  dsimp only at hspec ⊢
  generalize (s₁.finish k state).consume_hardlink_member operand.identity = consumed at hspec ⊢
  obtain ⟨remaining, s₂⟩ := consumed
  dsimp only at hspec ⊢
  have hpending := (s₂.readPending_spec a operand).1
  generalize s₂.readPending a operand = read at hspec hpending ⊢
  obtain ⟨pending, s₃⟩ := read
  dsimp only at hspec hpending ⊢
  obtain ⟨hmembers, hremaining, houtcomes, hready, hnext, first, second, hfirst, hsecond, hsteps⟩ :=
    hspec
  have houtcomes' : ∀ i, i < s.outcomes.length → ((s₃.outcomes[i]?.join).isSome = true ↔
      i = k ∨ (s.outcomes[i]?.join).isSome = true) := fun i hi => houtcomes ▸ s.outcomes_set k _ hi
  have hlo : s₃.outcomes.length = s.outcomes.length := by rw [houtcomes, length_set]
  have hlr : s₃.ready.length = s.ready.length := by rw [hready]
  subst hpending
  split
  · rename_i hpend
    split
    · rename_i hzero
      obtain ⟨hm, hn, hlo', hlr', ho, hr, third, hthird, hs⟩ :=
        s₃.finalize_spec operands a operand k
      have hzero' : (s₃.finalize a operands operand k).hardlink_members_remaining
          operand.identity = 0 :=
        (congrArg (·.getD 0) (congrFun hm _)).trans (hremaining.symm.trans hzero)
      refine ⟨_, _, ⟨fun other => ?_, hlo'.trans hlo, hlr'.trans hlr,
        fun i hi => by rw [ho, houtcomes' i hi], fun i hi => ?_, hn.trans hnext, first, second, hfirst,
        hsecond, .inl ⟨by rw [hpend]; rfl, hzero', third, hthird, by rw [hs, hsteps]⟩⟩, rfl⟩
      · exact (congrArg (·.getD 0) (congrFun hm other)).trans (hmembers other)
      · rw [hr, hready, isSettled_iff, ho]
        refine or_congr_right ⟨fun h => .inr ⟨hpend, hzero', h.2⟩, ?_⟩
        rintro (⟨-, hnot⟩ | ⟨-, -, h⟩)
        · rw [hpend] at hnot
          cases hnot
        · exact ⟨hi, h⟩
    · rename_i hmore
      have hmore' : s₃.hardlink_members_remaining operand.identity ≠ 0 := hremaining ▸ hmore
      refine ⟨_, _, ⟨hmembers, hlo, hlr, houtcomes', fun i hi => ?_, hnext, first, second, hfirst,
        hsecond, .inr ⟨fun _ => hmore', hsteps⟩⟩, rfl⟩
      rw [hready]
      refine ⟨.inl, ?_⟩
      rintro (h | ⟨-, hnot⟩ | ⟨-, hzero, -⟩)
      · exact h
      · rw [hpend] at hnot
        cases hnot
      · exact absurd hzero hmore'
  · rename_i hpend
    rw [Bool.not_eq_true] at hpend
    refine ⟨s₃.makeReady k, _, ⟨hmembers, hlo, (length_set).trans hlr, houtcomes', fun i hi => ?_, hnext, first,
      second, hfirst, hsecond, .inr ⟨fun h => ?_, hsteps⟩⟩, rfl⟩
    · rw [s₃.ready_makeReady k (hlr ▸ hi), hready]
      refine or_congr_right ⟨fun h => .inl ⟨h, by rw [hpend]; rfl⟩, ?_⟩
      rintro (⟨h, -⟩ | ⟨h, -⟩)
      · exact h
      · rw [hpend] at h
        cases h
    · rw [hpend] at h
      cases h

end Loop

end Ish.Fs
