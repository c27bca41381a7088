import Ish.Quarantine.Preparation

/-!
# Safety — no unverified object is destroyed

Every run of removals from the start of a session, whatever others do to the
live names and whichever calls fail: as long as no batch comes to the unlink of
an object that failed its check and could not be put back, an object is
destroyed only after a check that showed the expected one, what was taken is
destroyed, back under its name, or held with its record, and the outcomes tell
which requests were removed.
-/

namespace Ish.Quarantine

open List

open Ish.Lib.EState (Acts attempt after bind_ok)

/-! ## Operations and runs -/

inductive Operation where
  | remove (root parent : Directory) (request : Retirement)
  | removeAfterPublication (root parent : Directory) (request : Retirement)
      (publication : Publication)
  | removeBatch (root parent : Directory) (requests : List Retirement)

namespace Operation

def requests : Operation → List Retirement
  | .remove _ _ request => [request]
  | .removeAfterPublication _ _ request _ => [request]
  | .removeBatch _ _ requests => requests

/-- One outcome for each request. -/
def run : Operation → QuarantineM (List Outcome)
  | .remove root parent request => do return [← Quarantine.remove root parent request]
  | .removeAfterPublication root parent request publication => do
    return [← Quarantine.removeAfterPublication root parent request publication]
  | .removeBatch root parent requests => Quarantine.removeBatch root parent requests

end Operation

/-- The worlds of a session: it starts, and then removes. -/
inductive Reachable : World → Prop where
  | start (live : LiveNames) (turns : Nat → Turn) (next : Nat) :
      Reachable (.start live turns next)
  | step {world : World} (h : Reachable world) (op : Operation) :
      Reachable (after (op.run world))

/-! ## What is to be shown -/

/-- What was taken so far was treated as promised. -/
structure World.Safe (world : World) : Prop where
  verified : ∀ id later object earlier,
    (world.captures id).log = later ++ .unlinked object :: earlier →
      lastCheck earlier = some object ∧
      ∃ request, (world.captures id).request = some request ∧
        object = request.retirement.expected
  kept : ∀ id parent name object, .captured parent name object ∈ (world.captures id).log →
    .unlinked object ∈ (world.captures id).log ∨
    .restored parent name object none ∈ (world.captures id).log ∨
    ((world.captures id).entry = some object ∧
      ∃ request intent, (world.captures id).request = some request ∧
        request.parent = parent ∧ request.retirement.name = name ∧
        (world.captures id).intent = some (some intent) ∧ intent.Records request.retirement)
  not_replaced : ∀ id parent name object replaced,
    .restored parent name object replaced ∈ (world.captures id).log → replaced = none

/-- The outcomes of an operation say exactly which objects it destroyed. -/
structure Truthful (requests : List Retirement) (outcomes : List Outcome)
    (world world' : World) : Prop where
  length : outcomes.length = requests.length
  removed_iff : ∀ i outcome, outcomes[i]? = some outcome →
    (saysRemoved outcome = true ↔ ∃ id request, world.next ≤ id ∧
      (world'.captures id).request = some request ∧ request.index = i ∧
      requests[i]? = some request.retirement ∧ Destroyed (world'.captures id).log)

/-! ## Captures -/

/-- A capture number is unused, under the law, or was given up. -/
def Capture.Fine (capture : Capture) : Prop :=
  capture = .blank ∨ GivenUp capture.log ∨ ∃ request, capture.Sound request

/-- A world whose numbers from `next` on are unused. -/
structure World.Sound (world : World) : Prop where
  blank : ∀ id, world.next ≤ id → world.captures id = .blank
  fine : ∀ id, (world.captures id).Fine

theorem World.Sound.safe {world : World} (h : world.Sound)
    (hgivenUp : ∀ id, ¬ GivenUp (world.captures id).log) : world.Safe := by
  have hlaw : ∀ id effect, effect ∈ (world.captures id).log →
      ∃ request, (world.captures id).Sound request := by
    intro id effect hmem
    rcases h.fine id with hblank | hgiven | hsound
    · rw [hblank] at hmem
      cases hmem
    · exact absurd hgiven (hgivenUp id)
    · exact hsound
  refine ⟨?_, ?_, ?_⟩
  · intro id later object earlier hlog
    obtain ⟨request, hsound⟩ := hlaw id (.unlinked object) (by rw [hlog]; simp)
    have hlawful := hsound.lawful
    rw [hlog] at hlawful
    obtain ⟨_, hcheck, hexpected⟩ := hlawful.split
    exact ⟨hcheck, request, hsound.assigned, hexpected⟩
  · intro id parent name object hmem
    obtain ⟨request, hsound⟩ := hlaw id _ hmem
    rcases hsound.lawful.captured hmem with hgone | hback | hheld
    · exact Or.inl hgone
    · exact Or.inr (Or.inl hback)
    · obtain ⟨hparent, hname⟩ := hsound.lawful.hold_home hheld
      obtain ⟨intent, hintent, hrecords⟩ := hsound.recorded _ hheld
      refine Or.inr (Or.inr ⟨?_, request, intent, hsound.assigned, hparent.symm, hname.symm,
        hintent, hrecords⟩)
      rw [hsound.entry, hheld]
      rfl
  · intro id parent name object replaced hmem
    obtain ⟨request, hsound⟩ := hlaw id _ hmem
    obtain ⟨later, earlier, hlog⟩ := append_of_mem hmem
    have hlawful := hsound.lawful
    rw [hlog] at hlawful
    exact hlawful.split.2

/-- What an operation does: it uses new numbers, and tells the truth about each. -/
structure Settles (requests : List Retirement) (outcomes : List Outcome)
    (world world' : World) : Prop where
  length : outcomes.length = requests.length
  next : world.next ≤ world'.next
  blank : ∀ id, world'.next ≤ id → world'.captures id = .blank
  before : ∀ id, id < world.next → world'.captures id = world.captures id
  told : ∀ id, world.next ≤ id → id < world'.next →
    GivenUp (world'.captures id).log ∨
    ∃ request outcome, outcomes[request.index]? = some outcome ∧
      requests[request.index]? = some request.retirement ∧
      Settled request outcome (world'.captures id)
  reported : ∀ i outcome, outcomes[i]? = some outcome → saysRemoved outcome = true →
    ∃ id, world.next ≤ id ∧ id < world'.next ∧
      (GivenUp (world'.captures id).log ∨
        ∃ request, (world'.captures id).request = some request ∧ request.index = i)

section Settles

variable {requests : List Retirement} {outcomes : List Outcome} {world world₁ world' : World}

theorem Settles.sound (h : Settles requests outcomes world world') (hsound : world.Sound) :
    world'.Sound where
  blank := h.blank
  fine := by
    intro id
    by_cases hold : id < world.next
    · rw [h.before id hold]
      exact hsound.fine id
    · by_cases hnew : id < world'.next
      · rcases h.told id (Nat.le_of_not_lt hold) hnew with hgiven | ⟨request, _, _, _, hsettled⟩
        · exact Or.inr (Or.inl hgiven)
        · exact Or.inr (Or.inr ⟨request, hsettled.toSound⟩)
      · exact Or.inl (h.blank id (Nat.le_of_not_lt hnew))

theorem Settles.truthful (h : Settles requests outcomes world world')
    (hgivenUp : ∀ id, ¬ GivenUp (world'.captures id).log) :
    Truthful requests outcomes world world' := by
  refine ⟨h.length, ?_⟩
  intro i outcome houtcome
  constructor
  · intro hsaid
    obtain ⟨id, hlow, hhigh, hgiven | ⟨request, hrequest, hindex⟩⟩ := h.reported i outcome houtcome hsaid
    · exact absurd hgiven (hgivenUp id)
    · rcases h.told id hlow hhigh with hgiven | ⟨request', outcome', hget, hretirement, hsettled⟩
      · exact absurd hgiven (hgivenUp id)
      · obtain rfl : request' = request :=
          Option.some.inj (hsettled.assigned.symm.trans hrequest)
        subst hindex
        rw [houtcome] at hget
        cases hget
        exact ⟨id, request', hlow, hrequest, rfl, hretirement, hsettled.truthful.1 hsaid⟩
  · rintro ⟨id, request, hlow, hrequest, hindex, _, hdestroyed⟩
    have hhigh : id < world'.next := by
      by_contra hnot
      rw [h.blank id (Nat.le_of_not_lt hnot)] at hrequest
      cases hrequest
    rcases h.told id hlow hhigh with hgiven | ⟨request', outcome', hget, _, hsettled⟩
    · exact absurd hgiven (hgivenUp id)
    · obtain rfl : request' = request :=
        Option.some.inj (hsettled.assigned.symm.trans hrequest)
      subst hindex
      rw [houtcome] at hget
      cases hget
      exact hsettled.truthful.2 hdestroyed

/-- An operation that gave no number, and says so. -/
theorem Settles.idle (hlength : outcomes.length = requests.length) (hnext : world'.next = world.next)
    (hcaptures : world'.captures = world.captures)
    (hblank : ∀ id, world.next ≤ id → world.captures id = .blank)
    (hsaid : ∀ outcome ∈ outcomes, saysRemoved outcome = false) :
    Settles requests outcomes world world' where
  length := hlength
  next := Nat.le_of_eq hnext.symm
  blank := by
    intro id hid
    rw [hcaptures]
    exact hblank id (hnext ▸ hid)
  before := by
    intro id _
    rw [hcaptures]
  told := by
    intro id hlow hhigh
    omega
  reported := by
    intro i outcome hget hsaid'
    rw [hsaid outcome (mem_of_getElem? hget)] at hsaid'
    cases hsaid'

theorem Settles.after_calm (h : Settles requests outcomes world₁ world')
    (hnext : world₁.next = world.next) (hcaptures : world₁.captures = world.captures) :
    Settles requests outcomes world world' where
  length := h.length
  next := hnext ▸ h.next
  blank := h.blank
  before := by
    intro id hid
    rw [h.before id (hnext ▸ hid), hcaptures]
  told := fun id hlow => h.told id (hnext ▸ hlow)
  reported := fun i outcome => hnext ▸ h.reported i outcome

/-- An operation on one request that used one number. -/
theorem Settles.single
    (hindex : r.index = 0) (hnext : world'.next = world.next + 1)
    (hothers : ∀ id, id ≠ world.next → world'.captures id = world.captures id)
    (hblank : ∀ id, world.next ≤ id → world.captures id = .blank)
    (hsettled : Settled r outcome (world'.captures world.next)) :
    Settles [r.retirement] [outcome] world world' where
  length := rfl
  next := by omega
  blank := by
    intro id hid
    rw [hothers id (by omega)]
    exact hblank id (by omega)
  before := fun id hid => hothers id (by omega)
  told := by
    intro id hlow hhigh
    obtain rfl : id = world.next := by omega
    exact Or.inr ⟨r, outcome, by rw [hindex]; rfl, by rw [hindex]; rfl, hsettled⟩
  reported := by
    intro i outcome' hget _
    have hi : i < 1 := (List.getElem?_eq_some_iff.1 hget).1
    refine ⟨world.next, Nat.le_refl _, by omega, Or.inr ⟨r, hsettled.assigned, by omega⟩⟩

end Settles

/-! ## Each operation -/

theorem removeNumbered_on (root parent : Directory) (retirement : Retirement) (kind : RecordKind)
    (before : EntryIdentity) (id : Nat) :
    On id (Fresh (requestAt parent 0 retirement))
      (do
        match ← attempt rootState with
        | .error error => return .error { removed := false, error }
        | .ok () =>
          removeEntry parent (retirement.intent root kind) retirement.expected before id)
      (Settled (requestAt parent 0 retirement)) (fun _ _ => False) := by
  refine (call_skips id _).attempt.bind fun result => ?_
  cases result with
  | error e =>
    exact returns_on fun _ h => (Fresh.toUnheld h).back.toLeft.settled rfl
  | ok _ =>
    have hrecords : (retirement.intent root kind).Records
        (requestAt parent 0 retirement).retirement := ⟨rfl, rfl, rfl⟩
    exact removeEntry_on hrecords

theorem removeWithPublication_run (root parent : Directory) (request : Retirement)
    (publication : Option Publication) (hsound : world.Sound) :
    ∃ outcome world',
      removeWithPublication root parent request publication world = .ok outcome world' ∧
        Settles [request] [outcome] world world' := by
  obtain ⟨result, world₁, howner, hnext₁, hcaptures₁⟩ :=
    (check_skips "quarantine session belongs to another process").attempt.run world
  cases result with
  | error e =>
    refine ⟨_, world₁, (bind_ok howner).trans rfl, .idle rfl hnext₁ hcaptures₁ hsound.blank ?_⟩
    intro outcome hmem
    rw [mem_singleton.1 hmem]
    rfl
  | ok _ =>
    have hblank : world₁.captures world₁.next = .blank := by
      rw [hcaptures₁, hnext₁]
      exact hsound.blank _ (Nat.le_refl _)
    obtain ⟨world₂, halloc, hnext₂, hfresh, hothers₂⟩ :=
      allocate_run (requestAt parent 0 request) hblank
    obtain ⟨outcome, world₃, hrun, ⟨hnext₃, hothers₃⟩, hsettled⟩ :=
      (removeNumbered_on root parent request _ _ world₁.next).returns hfresh
    refine ⟨outcome, world₃, (bind_ok howner).trans ((bind_ok halloc).trans hrun), ?_⟩
    refine Settles.single (r := requestAt parent 0 request) rfl ?_ ?_ hsound.blank ?_
    · rw [hnext₃, hnext₂, hnext₁]
    · intro id hid
      rw [hothers₃ id (hnext₁ ▸ hid), hothers₂ id (hnext₁ ▸ hid), hcaptures₁]
    · rw [← hnext₁]
      exact hsettled

theorem batchUnfinished_get
    (h : (batchUnfinishedOutcomes slots)[i]? = some outcome) :
    saysRemoved outcome = true ↔ Says (slots.getD i none) := by
  rw [batchUnfinishedOutcomes, getElem?_map] at h
  obtain ⟨slot, hslot, rfl⟩ := Option.map_eq_some_iff.1 h
  rw [getD_eq_getElem?_getD, hslot]
  cases slot with
  | none => simp [saysRemoved, batchFailure, Says]
  | some outcome => simp [Says]

section Batch

variable {root parent : Directory} {requests : List Retirement} {world world₁ world₂ : World}
  {entries entries' : List BatchEntry} {slots slots' : Slots}

theorem Preparation.table (h : Preparation parent 0 requests world entries slots world₁) :
    Table (Prepared parent) entries slots world₁ where
  ids := pairwise_map.2 (h.ids.imp And.left)
  indices := pairwise_map.2 (h.ids.imp And.right)
  inside := by
    intro entry hentry
    obtain ⟨_, _, i, request, hindex, hget, _⟩ := h.prepared entry hentry
    have hi := (List.getElem?_eq_some_iff.1 hget).1
    rw [h.length]
    omega
  stage := by
    intro entry hentry
    obtain ⟨_, _, i, request, hindex, _, _, hprepared⟩ := h.prepared entry hentry
    rw [Nat.zero_add] at hindex
    rw [hindex]
    exact hprepared

theorem Preparation.no_entries (h : Preparation parent 0 requests world [] slots world₁) :
    Table (Final parent) [] slots world₁ :=
  h.table.mono fun _ _ _ hmem => by cases hmem

/-- What the phases made of the entry with a number or a place. -/
theorem Preparation.final (h : Preparation parent 0 requests world entries slots world₁)
    (htable : Table (Final parent) entries' slots' world₂)
    (hevolves : Evolves entries slots world₁ entries' slots' world₂)
    (hentry : entry ∈ entries) :
    ∃ request, requests[entry.index]? = some request ∧
      (GivenUp (world₂.captures entry.id).log ∨
        ((world₂.captures entry.id).Sound (requestAt parent entry.index request) ∧
          (Says (slots'.getD entry.index none) ↔
            Destroyed (world₂.captures entry.id).log))) := by
  obtain ⟨entry', hentry', hsame⟩ := same_mem hevolves.same hentry
  obtain ⟨_, _, i, request, hindex, hget, hrequest, _⟩ := h.prepared entry hentry
  rw [Nat.zero_add] at hindex hrequest
  have hfinal := htable.stage entry' hentry'
  rw [hsame.id, hsame.index] at hfinal
  refine ⟨request, hindex ▸ hget, ?_⟩
  rcases hfinal with hgiven | ⟨hsound, htruth⟩
  · exact Or.inl hgiven
  · rw [hsame.request parent, hrequest, ← hindex] at hsound
    exact Or.inr ⟨hsound, htruth⟩

theorem Preparation.settles (h : Preparation parent 0 requests world entries slots world₁)
    (htable : Table (Final parent) entries' slots' world₂)
    (hevolves : Evolves entries slots world₁ entries' slots' world₂) :
    Settles requests (batchUnfinishedOutcomes slots') world world₂ := by
  have hlength : (batchUnfinishedOutcomes slots').length = requests.length := by
    rw [batchUnfinishedOutcomes, length_map, hevolves.length, h.length]
  have houtcome : ∀ (i : Nat) (request : Retirement), requests[i]? = some request →
      ∃ outcome, (batchUnfinishedOutcomes slots')[i]? = some outcome := by
    intro i request hget
    have hi := (List.getElem?_eq_some_iff.1 hget).1
    exact ⟨_, getElem?_eq_getElem (hlength ▸ hi)⟩
  have houtside : ∀ id, id < world.next ∨ world₁.next ≤ id →
      id ∉ entries.map BatchEntry.id := by
    intro id hid hmem
    obtain ⟨entry, hentry, rfl⟩ := mem_map.1 hmem
    obtain ⟨hlow, hhigh, _⟩ := h.prepared entry hentry
    omega
  refine ⟨hlength, hevolves.next ▸ h.next, ?_, ?_, ?_, ?_⟩
  · intro id hid
    rw [hevolves.next] at hid
    rw [hevolves.captures id (houtside id (Or.inr hid))]
    exact h.blank id hid
  · intro id hid
    rw [hevolves.captures id (houtside id (Or.inl hid)), h.before id hid]
  · intro id hlow hhigh
    rw [hevolves.next] at hhigh
    by_cases hmem : id ∈ entries.map BatchEntry.id
    · obtain ⟨entry, hentry, rfl⟩ := mem_map.1 hmem
      obtain ⟨request, hget, hgiven | ⟨hsound, htruth⟩⟩ := h.final htable hevolves hentry
      · exact Or.inl hgiven
      · obtain ⟨outcome, hout⟩ := houtcome _ _ hget
        refine Or.inr ⟨_, outcome, hout, hget, hsound, ?_⟩
        rw [batchUnfinished_get hout, htruth]
    · obtain ⟨i, request, hget, hindex, hunheld⟩ := h.others id hlow hhigh hmem
      obtain ⟨outcome, hout⟩ := houtcome _ _ hget
      have hquiet := h.quiet i hindex
      rw [Nat.zero_add] at hindex hunheld
      refine Or.inr ⟨requestAt parent i request, outcome, hout, hget, ?_⟩
      rw [hevolves.captures id hmem]
      refine hunheld.back.toLeft.settled ?_
      rw [← hevolves.slots i hindex, ← batchUnfinished_get hout] at hquiet
      simpa using hquiet
  · intro i outcome hget hsaid
    rw [batchUnfinished_get hget] at hsaid
    by_cases hmem : i ∈ entries.map BatchEntry.index
    · obtain ⟨entry, hentry, rfl⟩ := mem_map.1 hmem
      obtain ⟨hlow, hhigh, _⟩ := h.prepared entry hentry
      refine ⟨entry.id, hlow, hevolves.next.symm ▸ hhigh, ?_⟩
      obtain ⟨request, _, hgiven | ⟨hsound, _⟩⟩ := h.final htable hevolves hentry
      · exact Or.inl hgiven
      · exact Or.inr ⟨_, hsound.assigned, rfl⟩
    · have hquiet := h.quiet i (by rwa [Nat.zero_add])
      rw [hevolves.slots i hmem] at hsaid
      exact absurd hsaid hquiet

theorem requireAncestry_skips (requests : List Retirement) : Skips (requireAncestry requests) := by
  cases requests with
  | nil => exact Skips.pure ()
  | cons request requests =>
    rw [requireAncestry]
    by_cases hany : (requests.any fun other => other.parents ≠ request.parents) = true
    · rw [if_pos hany]
      exact Skips.throw _
    · rw [if_neg hany]
      exact Skips.pure ()

theorem precheckBatch_skips (requests : List Retirement) : Skips (precheckBatch requests) :=
  (check_skips _).bind fun _ => (requireAncestry_skips requests).bind fun _ =>
    call_skips.bind fun _ => (check_skips _).bind fun _ => verifyParent_skips _

theorem fillUnsolved_settles (error : IoError) (hnext : world₁.next = world.next)
    (hcaptures : world₁.captures = world.captures)
    (hblank : ∀ id, world.next ≤ id → world.captures id = .blank) :
    Settles requests (fillUnsolved requests error) world world₁ := by
  refine .idle (length_map _) hnext hcaptures hblank ?_
  intro outcome hmem
  obtain ⟨_, _, rfl⟩ := mem_map.1 hmem
  rfl

theorem removeBatch_run (root parent : Directory) (requests : List Retirement)
    (hsound : world.Sound) :
    ∃ outcomes world', removeBatch root parent requests world = .ok outcomes world' ∧
      Settles requests outcomes world world' := by
  by_cases hempty : requests.isEmpty = true
  · refine ⟨[], world, congrFun (if_pos hempty) world, ?_⟩
    obtain rfl := List.isEmpty_iff.1 hempty
    exact fillUnsolved_settles (.invalid "") rfl rfl hsound.blank
  · obtain ⟨result, world₁, hcheck, hnext, hcaptures⟩ :=
      (precheckBatch_skips requests).attempt.run world
    have hstart : removeBatch root parent requests world = _ :=
      (congrFun (if_neg hempty) world).trans (bind_ok hcheck)
    cases result with
    | error e =>
      exact ⟨_, world₁, hstart, fillUnsolved_settles e hnext hcaptures hsound.blank⟩
    | ok _ =>
      have hblank : ∀ id, world₁.next ≤ id → world₁.captures id = .blank := by
        intro id hid
        rw [hcaptures]
        exact hsound.blank id (hnext ▸ hid)
      obtain ⟨entries, slots, world₂, hprepare, hpreparation⟩ :=
        prepareEntries_run root parent 0 requests hblank
      by_cases hnone : entries.isEmpty = true
      · obtain rfl := List.isEmpty_iff.1 hnone
        refine ⟨_, world₂, hstart.trans (bind_ok hprepare), ?_⟩
        exact (hpreparation.settles hpreparation.no_entries .refl).after_calm hnext hcaptures
      · obtain ⟨entries', slots', world₃, hrun, htable, hevolves⟩ :=
          publishBatch_carries entries slots world₂ hpreparation.table
        have hpublish : (if entries.isEmpty = true then pure (batchUnfinishedOutcomes slots)
            else publishBatch parent entries slots >>= fun published =>
              return batchUnfinishedOutcomes published.2 : QuarantineM (List Outcome)) world₂ =
            .ok (batchUnfinishedOutcomes slots') world₃ :=
          (congrFun (if_neg hnone) world₂).trans (bind_ok hrun)
        refine ⟨_, world₃, hstart.trans ((bind_ok hprepare).trans hpublish), ?_⟩
        exact (hpreparation.settles htable hevolves).after_calm hnext hcaptures

end Batch

/-! ## Every run -/

theorem Operation.run_settles (op : Operation) (hsound : world.Sound) :
    ∃ outcomes world', op.run world = .ok outcomes world' ∧
      Settles op.requests outcomes world world' := by
  cases op with
  | remove root parent request =>
    obtain ⟨outcome, world', hrun, hsettles⟩ :=
      removeWithPublication_run root parent request none hsound
    exact ⟨[outcome], world', bind_ok hrun, hsettles⟩
  | removeAfterPublication root parent request publication =>
    obtain ⟨outcome, world', hrun, hsettles⟩ :=
      removeWithPublication_run root parent request (some publication) hsound
    exact ⟨[outcome], world', bind_ok hrun, hsettles⟩
  | removeBatch root parent requests =>
    exact removeBatch_run root parent requests hsound

theorem Reachable.sound (h : Reachable world) : world.Sound := by
  induction h with
  | start live turns next => exact ⟨fun _ _ => rfl, fun _ => Or.inl rfl⟩
  | step h op ih =>
    obtain ⟨outcomes, world', hrun, hsettles⟩ := op.run_settles ih
    rw [hrun]
    exact hsettles.sound ih

namespace OneObject

def parent : Directory := { device := 1, inode := 2 }

def object (inode : UInt64) : EntryIdentity :=
  { file := { device := 1, inode }, kind := .RegularFile }

def name : Name := [97]

def batch : Operation :=
  .removeBatch parent parent [{ parents := [], name, expected := object 10 }]

/-- A session with one live name, where `changes` says when others put another
object under it. -/
def world (changes : Nat → Option EntryIdentity) : World :=
  .start (fun directory other => if directory = parent ∧ other = name then some (object 10) else none)
    (fun clock =>
      { others := fun live directory other =>
          match changes clock with
          | some object => if directory = parent ∧ other = name then some object else live directory other
          | none => live directory other
        failure := none })
    0

theorem world_reachable (changes : Nat → Option EntryIdentity) : Reachable (world changes) :=
  .start _ _ _

/-- Nobody interferes. -/
def quiet : World := world fun _ => none

/-- Another object is there at the capture, and a third one at the restore. -/
def disturbed : World :=
  world fun clock =>
    if clock = 18 then some (object 11) else if clock = 22 then some (object 12) else none

end OneObject

end Ish.Quarantine
