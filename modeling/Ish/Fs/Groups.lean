import Ish.Fs.Reporting

/-!
# Every operand is reported

After each turn, the outcomes that are ready are those that no group holds back,
and the first of them have been emitted. In a regular run a group holds its
outcomes until its last member has had its turn and the flags of the group have
been set.
-/

namespace Ish.Fs

open List

variable {operands : List PlannedOperand} {run : Run} {i j k : Nat} {operand : PlannedOperand}
  {s s' : Loop}

/-! ## The members that remain -/

def isMember (identity : Identity) (operand : PlannedOperand) : Bool :=
  operand.counts && decide (operand.identity = identity)

theorem hardlink_members_eq (operands : List PlannedOperand) (identity : Identity) :
    (hardlink_members operands identity).getD 0 = operands.countP (isMember identity) := by
  have hfold : ∀ (operands : List PlannedOperand) (members : Identity → Option Nat),
      (operands.foldl countMember members identity).getD 0 =
        (members identity).getD 0 + operands.countP (isMember identity) := by
    intro operands
    induction operands with
    | nil => exact fun members => rfl
    | cons operand operands ih =>
      intro members
      rw [foldl_cons, ih, countP_cons, countMember, isMember]
      by_cases hcounts : operand.counts = true
      · by_cases hidentity : operand.identity = identity
        · simp [hcounts, hidentity]
          omega
        · simp [hcounts, hidentity, Ne.symm hidentity]
      · simp [hcounts]
  exact (hfold operands fun _ => none).trans (Nat.zero_add _)

theorem countP_drop_eq_zero :
    (operands.drop k).countP (isMember identity) = 0 ↔
      ∀ j, k ≤ j → ¬ Counts operands j identity := by
  rw [countP_eq_zero]
  constructor
  · rintro h j hle ⟨operand, hoperand, hcounts, hidentity⟩
    refine h operand ?_ (by simp [isMember, hcounts, hidentity])
    have hdrop : (operands.drop k)[j - k]? = some operand := by
      rw [getElem?_drop, Nat.add_sub_cancel' hle, hoperand]
    exact mem_of_getElem? hdrop
  · intro h operand hmem hmember
    obtain ⟨i, hi⟩ := getElem?_of_mem hmem
    rw [getElem?_drop] at hi
    obtain ⟨hcounts, hidentity⟩ : operand.counts = true ∧ operand.identity = identity := by
      simpa [isMember] using hmember
    exact h (k + i) (Nat.le_add_right k i) ⟨operand, hi, hcounts, hidentity⟩

/-! ## The invariant -/

/-- After `k` turns, whatever has been reported of them. -/
structure Standing (operands : List PlannedOperand) (run : Run) (k : Nat) (s : Loop) : Prop where
  length_outcomes : s.outcomes.length = operands.length
  length_ready : s.ready.length = operands.length
  outcomes : ∀ i, i < operands.length → ((s.outcomes[i]?.join).isSome = true ↔ i < k)
  members : ∀ identity, s.hardlink_members_remaining identity =
    (operands.drop k).countP (isMember identity)
  ready : ∀ i, i < operands.length →
    (s.ready[i]? = some true ↔ i < k ∧ ¬ Held operands run i k)
  reported : ∀ i < s.next_outcome, s.ready[i]? = some true
  emitted : (outcomesOf s.steps).map (fun outcome => (outcome.source, outcome.destination)) =
    (operands.take s.next_outcome).map fun operand => (operand.source, operand.destination)
  ended : ∀ i < k, .Ended i ∈ s.steps
  finalized : (∀ i < k, Executed run i) → ∀ j identity, j < k → Counts operands j identity →
    (run.answers j).pending = true → (∀ j', k ≤ j' → ¬ Counts operands j' identity) →
    .Finalize identity ∈ s.steps
  sound : Sound operands run s.steps

/-- After `k` turns: nothing that is ready is left to report. -/
structure Reported (operands : List PlannedOperand) (run : Run) (k : Nat) (s : Loop) : Prop
    extends Standing operands run k s where
  stuck : s.ready[s.next_outcome]? ≠ some true

theorem standing_start (operands : List PlannedOperand) (run : Run) :
    Reported operands run 0 (.start operands) where
  length_outcomes := length_replicate
  length_ready := length_replicate
  outcomes := fun i hi => by simp [Loop.start, hi]
  members := hardlink_members_eq operands
  ready := fun i hi => by simp [Loop.start, hi]
  reported := nofun
  emitted := rfl
  ended := nofun
  finalized := nofun
  sound := .nil
  stuck := by
    rw [Loop.start, getElem?_replicate]
    split <;> simp

/-! ## A turn -/

/-- Nothing holds back an outcome at the end of its group when the last turn is told so. -/
theorem Regular.not_held (h : Regular operands run)
    (hlast : ∀ j, k + 1 ≤ j → ¬ Counts operands j operand.identity)
    (hpending : (run.answers k).pending = false) (hlt : i < k)
    (hi : Names operands i operand.identity) : ¬ Held operands run i k := by
  rintro ⟨-, hheld, identity, hnames, j, hle, hcounts⟩
  obtain rfl := hnames.unique hi
  obtain rfl : k = j := by
    by_contra hne
    exact hlast j (Nat.lt_of_le_of_ne hle hne) hcounts
  have hagreed := h.agreed i k _ (h.skipped_last i k _ hlt hi hcounts) hcounts
  rw [hheld, hpending] at hagreed
  cases hagreed

theorem Standing.length_emitted (h : Standing operands run k s)
    (hle : s.next_outcome ≤ operands.length) : (outcomesOf s.steps).length = s.next_outcome := by
  have hlength := congrArg List.length h.emitted
  rwa [length_map, length_map, length_take, Nat.min_eq_left hle] at hlength

theorem Standing.next_le (h : Standing operands run k s) : s.next_outcome ≤ operands.length := by
  by_contra hlt
  have hready := h.reported operands.length (Nat.lt_of_not_le hlt)
  have hbound := (List.getElem?_eq_some_iff.mp hready).1
  rw [h.length_ready] at hbound
  exact Nat.lt_irrefl _ hbound

theorem Taken.remaining (h : Taken operands k operand executed pending s s')
    (hregular : Regular operands run) (hk : operands[k]? = some operand)
    (hstanding : Standing operands run k s) (identity : Identity) :
    s'.hardlink_members_remaining identity = (operands.drop (k + 1)).countP (isMember identity) := by
  obtain ⟨hlt, hget⟩ := List.getElem?_eq_some_iff.mp hk
  have hdrop : operands.drop k = operand :: operands.drop (k + 1) := by
    rw [drop_eq_getElem_cons hlt, hget]
  rw [h.members, hstanding.members, hdrop, countP_cons]
  by_cases hidentity : identity = operand.identity
  · subst hidentity
    rw [if_pos rfl]
    by_cases hcounts : operand.counts = true
    · rw [if_pos (by simp [isMember, hcounts])]
      exact Nat.add_sub_cancel _ _
    · -- a name that does not count stands behind the members of its group
      have hzero : (operands.drop (k + 1)).countP (isMember operand.identity) = 0 := by
        rw [countP_drop_eq_zero]
        intro j hle hj
        obtain ⟨operand', hoperand', hcounts', -⟩ :=
          hregular.skipped_last k j _ hle ⟨operand, hk, rfl⟩ hj
        rw [hk, Option.some.injEq] at hoperand'
        exact hcounts (hoperand' ▸ hcounts')
      rw [hzero, if_neg (by simp [isMember, hcounts])]
  · rw [if_neg hidentity, if_neg (by simp [isMember, Ne.symm hidentity]), Nat.add_zero]

theorem Taken.ready_iff (hexecuted : executed = true ↔ Executed run k)
    (h : Taken operands k operand executed (run.answers k).pending s s')
    (hregular : Regular operands run) (hk : operands[k]? = some operand)
    (hstanding : Standing operands run k s) (hi : i < operands.length) :
    s'.ready[i]? = some true ↔ i < k + 1 ∧ ¬ Held operands run i (k + 1) := by
  have hlast := h.remaining hregular hk hstanding operand.identity
  have hzero : s'.hardlink_members_remaining operand.identity = 0 ↔
      ∀ j, k + 1 ≤ j → ¬ Counts operands j operand.identity := by
    rw [hlast, countP_drop_eq_zero]
  have houtcome : (s'.outcomes[i]?.join).isSome = true ↔ i < k + 1 := by
    rw [h.outcomes i (hstanding.length_outcomes ▸ hi), hstanding.outcomes i hi]
    omega
  rw [h.ready i (hstanding.length_ready ▸ hi), hstanding.ready i hi, hzero, houtcome]
  constructor
  · rintro (⟨hlt, hnot⟩ | ⟨rfl, hnot⟩ | ⟨hpending, hlast, hle, hnames, hlt⟩)
    · exact ⟨Nat.lt_succ_of_lt hlt, fun hheld => hnot hheld.of_succ⟩
    · refine ⟨Nat.lt_succ_self i, fun hheld => ?_⟩
      rw [hexecuted.mpr hheld.1, hheld.2.1] at hnot
      cases hnot
    · refine ⟨hlt, ?_⟩
      rintro ⟨-, -, identity, hnames', j, hle', hcounts⟩
      exact hlast j hle' (hnames'.unique hnames ▸ hcounts)
  · rintro ⟨hlt, hnot⟩
    have hnames : Names operands k operand.identity := ⟨operand, hk, rfl⟩
    by_cases hheld : i < k ∧ ¬ Held operands run i k
    · exact .inl hheld
    rcases Nat.eq_or_lt_of_le (Nat.le_of_lt_succ hlt) with rfl | hlt'
    · by_cases hboth : (executed && (run.answers i).pending) = false
      · exact .inr (.inl ⟨rfl, hboth⟩)
      · rw [Bool.not_eq_false, Bool.and_eq_true] at hboth
        refine .inr (.inr ⟨hboth.2, fun j hle hcounts => hnot ?_, Nat.le_refl i, hnames, hlt⟩)
        exact ⟨hexecuted.mp hboth.1, hboth.2, _, hnames, j, hle, hcounts⟩
    · have hheld : Held operands run i k := by
        by_contra hfree
        exact hheld ⟨hlt', hfree⟩
      obtain ⟨hran, hpend, identity, hi', j, hle, hcounts⟩ := id hheld
      have hlast' : ∀ j', k + 1 ≤ j' → ¬ Counts operands j' identity := fun j' hle' hcounts' =>
        hnot ⟨hran, hpend, identity, hi', j', hle', hcounts'⟩
      obtain rfl : k = j := by
        by_contra hne
        exact hlast' j (Nat.lt_of_le_of_ne hle hne) hcounts
      obtain rfl := hcounts.names.unique hnames
      refine .inr (.inr ⟨?_, hlast', Nat.le_of_lt hlt', hi', hlt⟩)
      by_contra hpending
      exact hregular.not_held hlast' (Bool.not_eq_true _ ▸ hpending) hlt' hi' hheld

theorem Taken.steps_sound (hexecuted : executed = true ↔ Executed run k)
    (h : Taken operands k operand executed (run.answers k).pending s s')
    (hregular : Regular operands run) (hk : operands[k]? = some operand)
    (hstanding : Standing operands run k s) :
    Sound operands run s'.steps ∧ outcomesOf s'.steps = outcomesOf s.steps ∧
      (∀ step ∈ s.steps, step ∈ s'.steps) ∧ .Ended k ∈ s'.steps ∧
      (executed = true → (run.answers k).pending = true →
        s'.hardlink_members_remaining operand.identity = 0 →
        .Finalize operand.identity ∈ s'.steps) := by
  obtain ⟨first, second, hfirst, hsecond, hsteps⟩ := h.steps
  have hfree : InPlace operands run (s.steps ++ first) (.Ended k) := trivial
  have hended : Sound operands run (s.steps ++ first ++ [.Ended k] ++ second) :=
    ((hstanding.sound.quiet hfirst).snoc hfree).quiet hsecond
  have houtcomes : outcomesOf (s.steps ++ first ++ [.Ended k] ++ second) = outcomesOf s.steps := by
    rw [outcomesOf_append, outcomesOf_append, outcomesOf_append, outcomesOf_quiet hfirst,
      outcomesOf_quiet hsecond]
    exact append_nil _ |>.trans ((append_nil _).trans (append_nil _))
  rcases hsteps with ⟨hboth, hzero, third, hthird, hsteps⟩ | ⟨hmore, hsteps⟩
  · rw [Bool.and_eq_true] at hboth
    have hran := hexecuted.mp hboth.1
    have hlast := hzero
    rw [h.remaining hregular hk hstanding, countP_drop_eq_zero] at hlast
    have hplace : InPlace operands run (s.steps ++ first ++ [.Ended k] ++ second)
        (.Finalize operand.identity) := by
      refine ⟨fun j hj => ?_, ?_⟩
      · rcases Nat.lt_or_ge k j with hlt | hle
        · exact absurd hj (hlast j hlt)
        · rcases Nat.eq_or_lt_of_le hle with rfl | hlt
          · simp
          · exact mem_append_left _ (mem_append_left _
              (mem_append_left _ (hstanding.ended j hlt)))
      · by_cases hdone : .Finalize operand.identity ∈ s.steps
        · exact .inl (mem_append_left _ (mem_append_left _ (mem_append_left _ hdone)))
        · refine .inr fun i hi hpend => ?_
          rw [houtcomes, hstanding.length_emitted hstanding.next_le]
          by_contra hlt
          -- its outcome was emitted: its group was at its end before
          have hready := hstanding.reported i (Nat.lt_of_not_le hlt)
          obtain ⟨hlt', hfree⟩ := (hstanding.ready i hi.lt).mp hready
          refine hdone (hstanding.finalized (fun i hi => hran.of_le (Nat.le_of_lt hi)) i _ hlt' hi
            hpend fun j hle hj => hfree ?_)
          exact ⟨hran.of_le (Nat.le_of_lt hlt'), hpend, _, hi.names, j, hle, hj⟩
    rw [hsteps]
    refine ⟨(hended.snoc hplace).quiet hthird, ?_, fun step hstep => by simp [hstep], by simp,
      fun _ _ _ => by simp⟩
    rw [outcomesOf_append, outcomesOf_append, houtcomes, outcomesOf_quiet hthird]
    exact (append_nil _).trans (append_nil _)
  · rw [hsteps]
    refine ⟨hended, houtcomes, fun step hstep => by simp [hstep], by simp, fun hb hp hzero => ?_⟩
    exact absurd hzero (hmore (by rw [hb, hp]; rfl))

/-- **A turn** keeps the invariant, up to what it reports. -/
theorem Taken.standing (hexecuted : executed = true ↔ Executed run k)
    (h : Taken operands k operand executed (run.answers k).pending s s')
    (hregular : Regular operands run) (hk : operands[k]? = some operand)
    (hstanding : Standing operands run k s) : Standing operands run (k + 1) s' := by
  obtain ⟨hsound, houtcomes, hkeeps, hended, hfinalize⟩ :=
    h.steps_sound hexecuted hregular hk hstanding
  have hready := fun i (hi : i < operands.length) => h.ready_iff hexecuted hregular hk hstanding hi
  refine ⟨h.length_outcomes.trans hstanding.length_outcomes,
    h.length_ready.trans hstanding.length_ready, fun i hi => ?_, h.remaining hregular hk hstanding,
    hready, fun i hi => ?_, ?_, fun i hi => ?_, fun hall j identity hj hcounts hpend hlast => ?_, hsound⟩
  · rw [h.outcomes i (hstanding.length_outcomes ▸ hi), hstanding.outcomes i hi]
    omega
  · rw [h.next_outcome] at hi
    have hlt := Nat.lt_of_lt_of_le hi hstanding.next_le
    exact (h.ready i (hstanding.length_ready ▸ hlt)).mpr (.inl (hstanding.reported i hi))
  · rw [houtcomes, h.next_outcome, hstanding.emitted]
  · rcases Nat.eq_or_lt_of_le (Nat.le_of_lt_succ hi) with rfl | hlt
    · exact hended
    · exact hkeeps _ (hstanding.ended i hlt)
  · have hran : executed = true := hexecuted.mpr (hall k (Nat.lt_succ_self k))
    by_cases hcountsK : Counts operands k identity
    · have hidentity : identity = operand.identity := hcountsK.names.unique ⟨operand, hk, rfl⟩
      subst hidentity
      have hagreed := hregular.agreed j k _ hcounts hcountsK
      refine hfinalize hran (hagreed.symm.trans hpend) ?_
      rw [h.remaining hregular hk hstanding, countP_drop_eq_zero]
      exact hlast
    · have hlt : j < k := by
        refine Nat.lt_of_le_of_ne (Nat.le_of_lt_succ hj) ?_
        rintro rfl
        exact hcountsK hcounts
      refine hkeeps _ (hstanding.finalized (fun i hi => hall i (Nat.lt_succ_of_lt hi)) j identity hlt
        hcounts hpend fun j' hle => ?_)
      rcases Nat.eq_or_lt_of_le hle with rfl | hlt'
      · exact hcountsK
      · exact hlast j' hlt'

/-! ## Reporting -/

theorem Standing.quietly (h : Standing operands run k s) (hquiet : Quietly s s') :
    Standing operands run k s' := by
  obtain ⟨extra, hextra, hsteps⟩ := hquiet.steps
  have houtcomes : outcomesOf s'.steps = outcomesOf s.steps := by
    rw [hextra, outcomesOf_append, outcomesOf_quiet hsteps, append_nil]
  have hkeeps : ∀ step ∈ s.steps, step ∈ s'.steps := fun step hstep =>
    hextra ▸ mem_append_left _ hstep
  refine ⟨hquiet.outcomes ▸ h.length_outcomes, hquiet.ready ▸ h.length_ready,
    hquiet.outcomes ▸ h.outcomes, fun identity => ?_, hquiet.ready ▸ h.ready, ?_, ?_,
    fun i hi => hkeeps _ (h.ended i hi), fun hall j identity hj hcounts hpend hlast =>
      hkeeps _ (h.finalized hall j identity hj hcounts hpend hlast), hextra ▸ h.sound.quiet hsteps⟩
  · rw [← h.members]
    exact congrArg (fun members => (members identity).getD 0) hquiet.members
  · rw [hquiet.next_outcome, hquiet.ready]
    exact h.reported
  · rw [houtcomes, hquiet.next_outcome, h.emitted]

theorem Standing.report_one (h : Standing operands run k s)
    (state : OperandState) (hready : s.ready[s.next_outcome]? = some true)
    (hoperand : operands[s.next_outcome]? = some operand) :
    Standing operands run k
      { s.emit (.Operand ⟨operand.source, operand.destination, state⟩) with
        next_outcome := s.next_outcome + 1 } := by
  obtain ⟨hlt, hget⟩ := List.getElem?_eq_some_iff.mp hoperand
  have hlength := h.length_emitted h.next_le
  have hplace : InPlace operands run s.steps
      (.Emit (.Operand ⟨operand.source, operand.destination, state⟩)) := by
    intro identity hcounts hran hpend j hj
    rw [hlength] at hcounts hran hpend
    obtain ⟨-, hfree⟩ := (h.ready _ hlt).mp hready
    refine h.ended j (Nat.lt_of_not_le fun hle => hfree ?_)
    exact ⟨hran, hpend, identity, hcounts.names, j, hle, hj⟩
  refine ⟨h.length_outcomes, h.length_ready, h.outcomes, h.members, h.ready, fun i hi => ?_, ?_,
    fun i hi => mem_append_left _ (h.ended i hi), fun hall j identity hj hcounts hpend hlast =>
      mem_append_left _ (h.finalized hall j identity hj hcounts hpend hlast),
    h.sound.snoc hplace⟩
  · rcases Nat.eq_or_lt_of_le (Nat.le_of_lt_succ hi) with rfl | hlt
    · exact hready
    · exact h.reported i hlt
  · change (outcomesOf (s.steps ++ _)).map _ = _
    rw [outcomesOf_append, map_append, h.emitted, take_add_one, map_append, hoperand]
    rfl

theorem Standing.report (h : Standing operands run k s)
    (hfuel : operands.length ≤ fuel + s.next_outcome) :
    Reported operands run k (s.report operands fuel) := by
  have hend : operands.length ≤ s.next_outcome → s.ready[s.next_outcome]? ≠ some true := by
    intro hle hready
    have hbound := (List.getElem?_eq_some_iff.mp hready).1
    rw [h.length_ready] at hbound
    exact Nat.not_lt.mpr hle hbound
  induction fuel generalizing s with
  | zero => exact ⟨h, hend (by rwa [Nat.zero_add] at hfuel)⟩
  | succ fuel ih =>
    rw [Loop.report]
    split
    · rename_i hready
      have hlt := Nat.lt_of_not_le fun hle => hend hle hready
      obtain ⟨operand, hoperand⟩ : ∃ operand, operands[s.next_outcome]? = some operand :=
        ⟨_, getElem?_eq_getElem hlt⟩
      have hsome := (h.outcomes _ hlt).mpr ((h.ready _ hlt).mp hready).1
      obtain ⟨state, hstate⟩ := Option.isSome_iff_exists.mp hsome
      rw [hoperand, hstate]
      dsimp only
      have hnext := h.report_one state hready hoperand
      refine ih hnext (by dsimp only; omega) fun hle hready => ?_
      have hbound := (List.getElem?_eq_some_iff.mp hready).1
      rw [hnext.length_ready] at hbound
      exact Nat.not_lt.mpr hle hbound
    · rename_i hready
      exact ⟨h, hready⟩

theorem turn_reported (hregular : Regular operands run) (hk : operands[k]? = some operand)
    (h : Reported operands run k s) : Reported operands run (k + 1) (turn operands run k operand s) := by
  rw [turn]
  split
  · rename_i hcancelled
    obtain ⟨s', htaken, heq⟩ := s.cancelledTurn_taken operands k
      (run.answers k) operand
    have hexecuted : false = true ↔ Executed run k :=
      iff_of_false nofun fun hran => by rw [Executed, hcancelled] at hran; cases hran
    rw [heq]
    exact (htaken.standing hexecuted hregular hk h.toStanding).report (Nat.le_add_right _ _)
  · rename_i hcancelled
    rw [Bool.not_eq_true] at hcancelled
    obtain ⟨s', progress, htaken, heq⟩ := s.executedTurn_taken operands k
      (run.answers k) (cancelledAt run.cancel (2 * k + 1)) operand
    have hreported := (htaken.standing (iff_of_true rfl hcancelled) hregular hk h.toStanding).report
      (Nat.le_add_right operands.length s'.next_outcome)
    rw [heq]
    refine ⟨hreported.toStanding.quietly ⟨rfl, rfl, rfl, rfl, _, rfl, fun step hstep => ?_⟩,
      hreported.stuck⟩
    exact ⟨.Progress progress, mem_singleton.mp hstep⟩

theorem turns_reported (hregular : Regular operands run)
    (hrest : operands.drop k = rest) (h : Reported operands run k s) :
    Reported operands run (k + rest.length) (turns operands run k rest s) := by
  induction rest generalizing k s with
  | nil => exact h
  | cons operand rest ih =>
    have hk : operands[k]? = some operand := by
      rw [← Nat.add_zero k, ← getElem?_drop, hrest, getElem?_cons_zero]
    have hdrop : operands.drop (k + 1) = rest := by
      rw [← drop_drop, hrest, drop_one, tail_cons]
    have hnext := ih hdrop (turn_reported hregular hk h)
    rw [length_cons, Nat.add_comm rest.length 1, ← Nat.add_assoc]
    exact hnext

/-! ## Every operand -/

/-- What an invocation reports of its operands. -/
structure Orderly (operands : List PlannedOperand) (run : Run) (steps : List Step) : Prop where
  /-- One outcome for each operand, in their order. -/
  reported : (outcomesOf steps).map (fun outcome => (outcome.source, outcome.destination)) =
    operands.map fun operand => (operand.source, operand.destination)
  /-- A group is finalized when all of its members have ended. -/
  finalized_last : ∀ before identity behind, steps = before ++ .Finalize identity :: behind →
    ∀ j, Counts operands j identity → .Ended j ∈ before
  /-- What is emitted of a group is emitted behind that. -/
  finalized_first : ∀ before identity behind, steps = before ++ .Finalize identity :: behind →
    .Finalize identity ∉ before → ∀ i, Counts operands i identity →
      (run.answers i).pending = true → (outcomesOf before).length ≤ i
  /-- Also when it is not finalized, its executed members wait for the last of them. -/
  reported_last : ∀ before outcome behind, steps = before ++ .Emit (.Operand outcome) :: behind →
    ∀ identity, Counts operands (outcomesOf before).length identity →
      Executed run (outcomesOf before).length →
      (run.answers (outcomesOf before).length).pending = true →
      ∀ j, Counts operands j identity → .Ended j ∈ before

/-- A name of an inode with three links. -/
def nameOf (name : UInt8) (action : Action) : PlannedOperand where
  source := [name]
  destination := [47, name]
  source_observed :=
    { identity := ⟨⟨1, 2⟩, .RegularFile⟩, size := 0, mode := 0, uid := 0, gid := 0, links := 3
      atime := ⟨0, 0⟩, mtime := ⟨0, 0⟩, ctime := ⟨0, 0⟩ }
  action := action

/-- All that is transferred is copied, and the flags of the inode are to be set. -/
def flagged : Run where
  answers := fun _ =>
    { checkpoint := none, transfer := fun _ progress => ⟨.ok .Copied, progress, []⟩
      pending_flags := .ok true, finalized := .ok () }
  cancel := none
  reason := none

end Ish.Fs
