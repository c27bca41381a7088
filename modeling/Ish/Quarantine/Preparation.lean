import Ish.Quarantine.BatchRemoval

/-!
# Preparing a batch

What the first loop of a batch does: it gives capture numbers to requests, one
after another, and each number belongs to a prepared entry, or nothing was taken
under it and the slot of its request does not say so.
-/

namespace Ish.Quarantine

open List

open Ish.Lib.EState (Acts attempt bind_ok)

section Preparation

variable {root parent : Directory} {index : Nat} {request : Retirement}

/-- The request of a place in a batch. -/
def requestAt (parent : Directory) (index : Nat) (retirement : Retirement) : Request :=
  { index, parent, retirement }

/-- The result of writing a record. -/
def Written (parent : Directory) (index : Nat) (request : Retirement) (id : Nat)
    (result : Option BatchEntry × Option Outcome) (capture : Capture) : Prop :=
  (result.1 = none ∧ ¬ Says result.2 ∧ Unheld (requestAt parent index request) capture) ∨
  ∃ entry, result = (some entry, none) ∧ entry.id = id ∧
    entry.request parent = requestAt parent index request ∧ Prepared parent entry none capture

theorem writeEntry_on (root : Directory) (id : Nat) :
    On id (Fresh (requestAt parent index request)) (writeEntry root index request id)
      (Written parent index request id) (fun _ _ => False) := by
  have hfailed : ∀ error capture, Unheld (requestAt parent index request) capture →
      Written parent index request id (none, some (batchFailure error)) capture :=
    fun error capture h => Or.inl ⟨rfl, not_says_failure error, h⟩
  refine ((check_skips _ id _).attempt).bind fun result => ?_
  cases result with
  | error e => exact returns_on fun capture h => hfailed e capture (Fresh.toUnheld h)
  | ok _ =>
    let intent := request.intent root .Retirement
    have hwrite : On id (Fresh (requestAt parent index request))
        (do writePending id intent; sync)
        (fun _ => Pending (requestAt parent index request) intent)
        (fun _ => Fresh (requestAt parent index request)) :=
      (writePending_on intent).bind fun _ => (call_skips id _).error fun _ _ h => h.toFresh
    refine (hwrite.attempt).bind fun result => ?_
    cases result with
    | error e =>
      have hunlink : On id (Fresh (requestAt parent index request)) (unlinkPending id)
          (fun _ => Fresh (requestAt parent index request))
          (fun _ => Fresh (requestAt parent index request)) :=
        unlinkPending_on fun _ _ h => ⟨⟨h.assigned, h.entry, h.log⟩, h.no_intent⟩
      refine (attempt_keeps hunlink).bind fun _ => ?_
      exact returns_on fun capture h => hfailed e capture h.toUnheld
    | ok _ =>
      refine returns_on fun capture h => Or.inr ⟨_, rfl, rfl, rfl, ?_, h⟩
      exact ⟨⟨rfl, rfl, rfl⟩, rfl, rfl, rfl, rfl⟩

theorem allocate_run (request : Request) {world}
    (hblank : world.captures world.next = .blank) :
    ∃ world', allocate request world = .ok world.next world' ∧ world'.next = world.next + 1 ∧
      Fresh request (world'.captures world.next) ∧
      ∀ id, id ≠ world.next → world'.captures id = world.captures id := by
  refine ⟨_, rfl, rfl, ?_, fun id hid => if_neg hid⟩
  show Fresh request (if world.next = world.next then _ else _)
  rw [if_pos rfl, hblank]
  exact ⟨⟨rfl, rfl, rfl⟩, rfl⟩

/-- What the preparation of one request does to the world. -/
inductive Prepares (parent : Directory) (index : Nat) (request : Retirement) (world : World)
    (result : Option BatchEntry × Option Outcome) (world' : World) : Prop where
  /-- No number is given. -/
  | skipped (next : world'.next = world.next) (captures : world'.captures = world.captures)
      (entry : result.1 = none) (slot : ¬ Says result.2)
  | allocated (next : world'.next = world.next + 1)
      (captures : ∀ id, id ≠ world.next → world'.captures id = world.captures id)
      (written : Written parent index request world.next result (world'.captures world.next))

theorem prepareEntry_run (root parent : Directory) (index : Nat) (request : Retirement)
    {world} (hblank : world.captures world.next = .blank) :
    ∃ result world', prepareEntry root parent index request world = .ok result world' ∧
      Prepares parent index request world result world' := by
  obtain ⟨found, world₁, hrun, hnext, hcaptures⟩ :=
    (statLive_skips parent request.name).attempt.run world
  rw [prepareEntry, bind_ok hrun]
  split
  · exact ⟨_, world₁, rfl, .skipped hnext hcaptures rfl (not_says_ok (by simp))⟩
  · exact ⟨_, world₁, rfl, .skipped hnext hcaptures rfl (not_says_failure _)⟩
  · rename_i object
    by_cases hobject : object ≠ request.expected
    · rw [if_pos hobject]
      exact ⟨_, world₁, rfl, .skipped hnext hcaptures rfl (not_says_ok (by simp))⟩
    · rw [if_neg hobject]
      obtain ⟨world₂, halloc, hnext₂, hself, hothers⟩ := allocate_run (requestAt parent index request)
        (hnext ▸ hcaptures ▸ hblank : world₁.captures world₁.next = .blank)
      obtain ⟨result, world₃, hwrite, ⟨hnext₃, hothers₃⟩, hwritten⟩ :=
        (writeEntry_on root world₁.next).returns hself
      refine ⟨result, world₃, (bind_ok halloc).trans hwrite, .allocated ?_ ?_ ?_⟩
      · rw [hnext₃, hnext₂, hnext]
      · intro id hid
        rw [hothers₃ id (hnext ▸ hid), hothers id (hnext ▸ hid), hcaptures]
      · rw [← hnext]
        exact hwritten

/-- What the preparation of the requests from `index` on leaves. -/
structure Preparation (parent : Directory) (index : Nat) (requests : List Retirement)
    (world : World) (entries : List BatchEntry) (slots : Slots) (world' : World) : Prop where
  length : slots.length = requests.length
  next : world.next ≤ world'.next
  blank : ∀ id, world'.next ≤ id → world'.captures id = .blank
  before : ∀ id, id < world.next → world'.captures id = world.captures id
  ids : entries.Pairwise fun entry other => entry.id ≠ other.id ∧ entry.index ≠ other.index
  prepared : ∀ entry ∈ entries, world.next ≤ entry.id ∧ entry.id < world'.next ∧
    ∃ i request, entry.index = index + i ∧ requests[i]? = some request ∧
      entry.request parent = requestAt parent (index + i) request ∧
      Prepared parent entry (slots.getD i none) (world'.captures entry.id)
  others : ∀ id, world.next ≤ id → id < world'.next → id ∉ entries.map BatchEntry.id →
    ∃ i request, requests[i]? = some request ∧
      index + i ∉ entries.map BatchEntry.index ∧
      Unheld (requestAt parent (index + i) request) (world'.captures id)
  quiet : ∀ i, index + i ∉ entries.map BatchEntry.index → ¬ Says (slots.getD i none)

namespace Preparation

variable {requests : List Retirement} {world world₁ world' : World} {entries : List BatchEntry}
  {slots : Slots} {slot : Option Outcome}

/-- No entry has a place in front of `index`. -/
theorem front (h : Preparation parent (index + 1) requests world entries slots world') :
    index ∉ entries.map BatchEntry.index := by
  intro hmem
  obtain ⟨entry, hentry, hindex⟩ := mem_map.1 hmem
  obtain ⟨_, _, i, _, hi, _⟩ := h.prepared entry hentry
  omega

section

variable (h : Preparation parent (index + 1) requests world₁ entries slots world')
include h

theorem prepared_tail
    (hnext : world.next ≤ world₁.next) {entry} (hentry : entry ∈ entries) :
    world.next ≤ entry.id ∧ entry.id < world'.next ∧
      ∃ i retirement, entry.index = index + i ∧
        (request :: requests)[i]? = some retirement ∧
        entry.request parent = requestAt parent (index + i) retirement ∧
        Prepared parent entry ((slot :: slots).getD i none) (world'.captures entry.id) := by
  obtain ⟨hlow, hhigh, i, retirement, hindex, hget, hrequest, hprepared⟩ := h.prepared entry hentry
  have hshift : index + 1 + i = index + (i + 1) := by omega
  rw [hshift] at hindex hrequest
  exact ⟨Nat.le_trans hnext hlow, hhigh, i + 1, retirement, hindex, hget, hrequest, hprepared⟩

/-- The other numbers of the requests that follow, one place further. -/
theorem others_tail
    (request : Retirement) {id} (hlow : world₁.next ≤ id) (hhigh : id < world'.next)
    (hmem : id ∉ entries.map BatchEntry.id) :
    ∃ i retirement, (request :: requests)[i]? = some retirement ∧ i ≠ 0 ∧
      index + i ∉ entries.map BatchEntry.index ∧
      Unheld (requestAt parent (index + i) retirement) (world'.captures id) := by
  obtain ⟨i, retirement, hget, hindex, hunheld⟩ := h.others id hlow hhigh hmem
  have hshift : index + 1 + i = index + (i + 1) := by omega
  rw [hshift] at hindex hunheld
  exact ⟨i + 1, retirement, hget, by omega, hindex, hunheld⟩

theorem quiet_tail {i} (hmem : index + (i + 1) ∉ entries.map BatchEntry.index) :
    ¬ Says ((slot :: slots).getD (i + 1) none) :=
  h.quiet i fun hin => hmem (by rwa [show index + 1 + i = index + (i + 1) by omega] at hin)

/-- The first request gets no number, or its record is not written. -/
theorem unprepared (hslot : ¬ Says slot) (hnext : world.next ≤ world₁.next)
    (hbefore : ∀ id, id < world.next → world₁.captures id = world.captures id)
    (hself : ∀ id, world.next ≤ id → id < world₁.next →
      Unheld (requestAt parent index request) (world₁.captures id)) :
    Preparation parent index (request :: requests) world entries (slot :: slots) world' where
  length := by rw [length_cons, length_cons, h.length]
  next := Nat.le_trans hnext h.next
  blank := h.blank
  before := by
    intro id hid
    rw [h.before id (Nat.lt_of_lt_of_le hid hnext), hbefore id hid]
  ids := h.ids
  prepared := fun entry hentry => h.prepared_tail hnext hentry
  others := by
    intro id hlow hhigh hmem
    by_cases hid : id < world₁.next
    · refine ⟨0, request, rfl, h.front, ?_⟩
      rw [h.before id hid]
      exact hself id hlow hid
    · obtain ⟨i, retirement, hget, _, hindex, hunheld⟩ :=
        h.others_tail request (Nat.le_of_not_lt hid) hhigh hmem
      exact ⟨i, retirement, hget, hindex, hunheld⟩
  quiet := by
    intro i hmem
    cases i with
    | zero => exact hslot
    | succ i => exact h.quiet_tail hmem

/-- The record of the first request is written. -/
theorem cons {entry} (hnext : world₁.next = world.next + 1)
    (hbefore : ∀ id, id ≠ world.next → world₁.captures id = world.captures id)
    (hid : entry.id = world.next)
    (hrequest : entry.request parent = requestAt parent index request)
    (hprepared : Prepared parent entry none (world₁.captures world.next)) :
    Preparation parent index (request :: requests) world (entry :: entries) (none :: slots)
      world' where
  length := by rw [length_cons, length_cons, h.length]
  next := by
    have hle := h.next
    omega
  blank := h.blank
  before := by
    intro id hlt
    rw [h.before id (by omega), hbefore id (by omega)]
  ids := by
    refine pairwise_cons.2 ⟨?_, h.ids⟩
    intro other hother
    obtain ⟨hlow, _, i, _, hi, _⟩ := h.prepared other hother
    have hindex : entry.index = index := congrArg Request.index hrequest
    omega
  prepared := by
    intro other hother
    rcases mem_cons.1 hother with heq | hother
    · subst heq
      have hle := h.next
      refine ⟨by omega, by omega, 0, request, congrArg Request.index hrequest, rfl, hrequest, ?_⟩
      rw [hid, h.before _ (by omega)]
      exact hprepared
    · exact h.prepared_tail (by omega) hother
  others := by
    intro id hlow hhigh hmem
    rw [map_cons, mem_cons, not_or] at hmem
    have hidne : id ≠ world.next := fun heq => hmem.1 (heq.trans hid.symm)
    obtain ⟨i, retirement, hget, hi, hindex, hunheld⟩ :=
      h.others_tail request (by omega) hhigh hmem.2
    refine ⟨i, retirement, hget, ?_, hunheld⟩
    rw [map_cons, mem_cons, not_or]
    refine ⟨?_, hindex⟩
    have hfirst : entry.index = index := congrArg Request.index hrequest
    omega
  quiet := by
    intro i hmem
    rw [map_cons, mem_cons, not_or] at hmem
    cases i with
    | zero => exact not_says_none
    | succ i => exact h.quiet_tail hmem.2

end

end Preparation

/-- **The first loop** of a batch. -/
theorem prepareEntries_run (root parent : Directory) (index : Nat) (requests : List Retirement)
    {world} (hblank : ∀ id, world.next ≤ id → world.captures id = .blank) :
    ∃ entries slots world',
      prepareEntries root parent index requests world = .ok (entries, slots) world' ∧
        Preparation parent index requests world entries slots world' := by
  induction requests generalizing index world with
  | nil =>
    refine ⟨[], [], world, rfl, rfl, Nat.le_refl _, hblank, fun _ _ => rfl, .nil, ?_, ?_, ?_⟩
    · intro entry hentry
      cases hentry
    · intro id hlow hhigh
      omega
    · intro i _
      exact not_says_none
  | cons request requests ih =>
    obtain ⟨⟨entry, slot⟩, world₁, hrun, hstep⟩ :=
      prepareEntry_run root parent index request
        (hblank world.next (Nat.le_refl _))
    have hblank₁ : ∀ id, world₁.next ≤ id → world₁.captures id = .blank := by
      intro id hid
      cases hstep with
      | skipped next captures =>
        rw [captures]
        exact hblank id (next ▸ hid)
      | allocated next captures =>
        rw [captures id (by omega)]
        exact hblank id (by omega)
    obtain ⟨entries, slots, world', hrest, htail⟩ := ih (index + 1) hblank₁
    have hall : prepareEntries root parent index (request :: requests) world =
        .ok (entry.toList ++ entries, slot :: slots) world' :=
      (bind_ok hrun).trans (bind_ok hrest)
    refine ⟨_, _, world', hall, ?_⟩
    cases hstep with
    | skipped next captures hentry hslot =>
      obtain rfl : entry = none := hentry
      refine htail.unprepared hslot (Nat.le_of_eq next.symm) (fun id _ => by rw [captures]) ?_
      intro id hlow hhigh
      omega
    | allocated next captures written =>
      rcases written with ⟨hentry, hslot, hunheld⟩ | ⟨first, hfirst, hid, hrequest, hprepared⟩
      · obtain rfl : entry = none := hentry
        refine htail.unprepared hslot (by omega) (fun id hid => captures id (by omega)) ?_
        intro id hlow hhigh
        obtain rfl : id = world.next := by omega
        exact hunheld
      · cases hfirst
        exact htail.cons next captures hid hrequest hprepared

end Preparation

end Ish.Quarantine
