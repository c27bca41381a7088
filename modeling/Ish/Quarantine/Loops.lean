import Ish.Quarantine.Batch
import Ish.Quarantine.Calls
import Mathlib.Data.List.Forall2

/-!
# The loops of a batch

A loop body is about one entry: its flags, its slot and its files. When the
entries have their own capture numbers and slots, what a body does to one entry
the loop does to all of them, and nothing else changes.
-/

namespace Ish.Quarantine

open List

open Ish.Lib.EState (Acts attempt bind_ok)

/-- Nothing but the flags differs. -/
structure SameEntry (entry entry' : BatchEntry) : Prop where
  id : entry'.id = entry.id
  index : entry'.index = entry.index
  intent : entry'.intent = entry.intent
  expected : entry'.expected = entry.expected

theorem SameEntry.refl (entry : BatchEntry) : SameEntry entry entry := ⟨rfl, rfl, rfl, rfl⟩

instance : Std.Refl SameEntry := ⟨SameEntry.refl⟩

theorem SameEntry.trans (h : SameEntry entry entry')
    (h' : SameEntry entry' entry'') : SameEntry entry entry'' :=
  ⟨h'.id.trans h.id, h'.index.trans h.index, h'.intent.trans h.intent,
    h'.expected.trans h.expected⟩

/-- A condition on an entry, its slot and its files. -/
abbrev Stage := BatchEntry → Option Outcome → Capture → Prop

/-- Entries with capture numbers and slots of their own, all in a stage. -/
structure Table (stage : Stage) (entries : List BatchEntry) (slots : Slots) (world : World) :
    Prop where
  ids : (entries.map BatchEntry.id).Nodup
  indices : (entries.map BatchEntry.index).Nodup
  inside : ∀ entry ∈ entries, entry.index < slots.length
  stage : ∀ entry ∈ entries,
    stage entry (slots.getD entry.index none) (world.captures entry.id)

/-- Nothing but the flags, the slots and the files of the entries differs. -/
structure Evolves (entries : List BatchEntry) (slots : Slots) (world : World)
    (entries' : List BatchEntry) (slots' : Slots) (world' : World) : Prop where
  same : List.Forall₂ SameEntry entries entries'
  length : slots'.length = slots.length
  slots : ∀ i, i ∉ entries.map BatchEntry.index → slots'.getD i none = slots.getD i none
  next : world'.next = world.next
  captures : ∀ id, id ∉ entries.map BatchEntry.id → world'.captures id = world.captures id

section Tables

variable {stage stage' : Stage} {entries entries' entries'' : List BatchEntry}
  {slots slots' slots'' : Slots} {world world' world'' : World}

theorem Table.mono (h : Table stage entries slots world)
    (hstage : ∀ entry slot capture, entry ∈ entries → stage entry slot capture →
      stage' entry slot capture) : Table stage' entries slots world where
  ids := h.ids
  indices := h.indices
  inside := h.inside
  stage := fun entry hentry => hstage entry _ _ hentry (h.stage entry hentry)

section

variable (h : List.Forall₂ SameEntry entries entries')
include h

theorem ids_eq :
    entries'.map BatchEntry.id = entries.map BatchEntry.id := by
  induction h with
  | nil => rfl
  | cons hentry _ ih => rw [map_cons, map_cons, hentry.id, ih]

theorem indices_eq :
    entries'.map BatchEntry.index = entries.map BatchEntry.index := by
  induction h with
  | nil => rfl
  | cons hentry _ ih => rw [map_cons, map_cons, hentry.index, ih]

theorem same_mem
    (hentry : entry ∈ entries) : ∃ entry' ∈ entries', SameEntry entry entry' := by
  induction h with
  | nil => cases hentry
  | cons hsame _ ih =>
    rcases mem_cons.1 hentry with heq | hentry
    · exact ⟨_, mem_cons_self, heq ▸ hsame⟩
    · obtain ⟨entry', hmem, hsame'⟩ := ih hentry
      exact ⟨entry', mem_cons_of_mem _ hmem, hsame'⟩

theorem same_trans (h' : List.Forall₂ SameEntry entries' entries'') :
    List.Forall₂ SameEntry entries entries'' := by
  induction h generalizing entries'' with
  | nil =>
    cases h'
    exact .nil
  | cons hentry _ ih =>
    cases h' with
    | cons hentry' hrest => exact .cons (hentry.trans hentry') (ih hrest)

end

theorem Evolves.refl : Evolves entries slots world entries slots world where
  same := forall₂_refl entries
  length := rfl
  slots := fun _ _ => rfl
  next := rfl
  captures := fun _ _ => rfl

theorem Evolves.trans (h : Evolves entries slots world entries' slots' world')
    (h' : Evolves entries' slots' world' entries'' slots'' world'') :
    Evolves entries slots world entries'' slots'' world'' where
  same := same_trans h.same h'.same
  length := h'.length.trans h.length
  slots := by
    intro i hi
    rw [h'.slots i (indices_eq h.same ▸ hi), h.slots i hi]
  next := h'.next.trans h.next
  captures := by
    intro id hid
    rw [h'.captures id (ids_eq h.same ▸ hid), h.captures id hid]

end Tables

theorem getD_set_eq {slots : Slots} (h : i < slots.length) (slot : Option Outcome) :
    (slots.set i slot).getD i none = slot := by
  simp [getD_eq_getElem?_getD, h]

theorem getD_set_ne {slots : Slots} (h : i ≠ j) (slot : Option Outcome) :
    (slots.set i slot).getD j none = slots.getD j none := by
  simp [getD_eq_getElem?_getD, getElem?_set_ne h]

/-- The entry is the same up to its flags, and in a stage. -/
def Leaves (stage : Stage) (entry : BatchEntry) (result : BatchEntry × Option Outcome)
    (capture : Capture) : Prop :=
  SameEntry entry result.1 ∧ stage result.1 result.2 capture

/-- What a body does to its entry, without failing. -/
def Advances (stage stage' : Stage) {σ : Type}
    (body : σ → BatchEntry → Option Outcome → QuarantineM (σ × BatchEntry × Option Outcome)) :
    Prop :=
  ∀ acc entry slot, On entry.id (stage entry slot) (body acc entry slot)
    (fun result => Leaves stage' entry result.2) (fun _ _ => False)

/-- **The loop rule**: what the body does to one entry, the loop does to all. -/
theorem foldEntries_run {stage stage' : Stage} {σ : Type}
    {body : σ → BatchEntry → Option Outcome → QuarantineM (σ × BatchEntry × Option Outcome)}
    (hbody : Advances stage stage' body) (acc : σ) (h : Table stage entries slots world) :
    ∃ acc' entries' slots' world',
      foldEntries body acc entries slots world = .ok (acc', entries', slots') world' ∧
        Table stage' entries' slots' world' ∧
        Evolves entries slots world entries' slots' world' := by
  induction entries generalizing acc slots world with
  | nil =>
    refine ⟨acc, [], slots, world, rfl, ⟨h.ids, h.indices, ?_, ?_⟩, .refl⟩
    · intro entry hentry
      cases hentry
    · intro entry hentry
      cases hentry
  | cons entry entries ih =>
    obtain ⟨⟨acc₁, entry₁, slot₁⟩, world₁, hrun, ⟨hnext, hothers⟩, hsame, hstage⟩ :=
      (hbody acc entry (slots.getD entry.index none)).returns
        (h.stage entry mem_cons_self)
    have hids := nodup_cons.1 h.ids
    have hindices := nodup_cons.1 h.indices
    have hidne : ∀ other ∈ entries, other.id ≠ entry.id := fun other hother heq =>
      hids.1 (heq ▸ mem_map_of_mem hother)
    have hindexne : ∀ other ∈ entries, entry.index ≠ other.index := fun other hother heq =>
      hindices.1 (heq ▸ mem_map_of_mem hother)
    -- the entries that follow are still as they were
    have hrest : Table stage entries (slots.set entry.index slot₁) world₁ := by
      refine ⟨hids.2, hindices.2, ?_, ?_⟩
      · intro other hother
        rw [length_set]
        exact h.inside other (mem_cons_of_mem _ hother)
      · intro other hother
        rw [getD_set_ne (hindexne other hother), hothers _ (hidne other hother)]
        exact h.stage other (mem_cons_of_mem _ hother)
    obtain ⟨acc₂, entries₂, slots₂, world₂, hloop, htable, hevolves⟩ := ih acc₁ hrest
    have hinside : entry.index < slots.length := h.inside entry mem_cons_self
    refine ⟨acc₂, entry₁ :: entries₂, slots₂, world₂, ?_, ⟨?_, ?_, ?_, ?_⟩, ?_⟩
    · show (body acc entry (slots.getD entry.index none) >>= _) world = _
      rw [bind_ok hrun]
      show (foldEntries body acc₁ entries (slots.set entry.index slot₁) >>= _) world₁ = _
      rw [bind_ok hloop]
      rfl
    · rw [ids_eq (.cons hsame hevolves.same)]
      exact h.ids
    · rw [indices_eq (.cons hsame hevolves.same)]
      exact h.indices
    · intro other hother
      rcases mem_cons.1 hother with heq | hother
      · rw [heq, hsame.index, hevolves.length, length_set]
        exact hinside
      · exact htable.inside other hother
    · intro other hother
      rcases mem_cons.1 hother with heq | hother
      · -- the loop over the rest did not come back to this entry
        rw [heq, hsame.index, hsame.id, hevolves.slots _ hindices.1, hevolves.captures _ hids.1,
          getD_set_eq hinside]
        exact hstage
      · exact htable.stage other hother
    · refine ⟨.cons hsame hevolves.same, ?_, ?_, hevolves.next.trans hnext, ?_⟩
      · rw [hevolves.length, length_set]
      · intro i hi
        rw [map_cons, mem_cons, not_or] at hi
        rw [hevolves.slots i hi.2, getD_set_ne (Ne.symm hi.1)]
      · intro id hnot
        rw [map_cons, mem_cons, not_or] at hnot
        rw [hevolves.captures id hnot.2, hothers id hnot.1]

/-! ## Phases -/

/-- A phase takes all entries from one stage to another, and never fails. -/
def Carries (stage stage' : Stage) (part : Phase) : Prop :=
  ∀ entries slots world, Table stage entries slots world →
    ∃ entries' slots' world', part entries slots world = .ok (entries', slots') world' ∧
      Table stage' entries' slots' world' ∧
      Evolves entries slots world entries' slots' world'

namespace Carries

variable {stage stage' stage'' : Stage}

theorem fold {σ : Type}
    {body}
    (hbody : Advances stage stage' body) (acc : σ) :
    Carries stage stage' (fun entries slots => do
      let (_, entries, slots) ← foldEntries body acc entries slots
      return (entries, slots)) := by
  intro entries slots world h
  obtain ⟨acc', entries', slots', world', hrun, htable, hevolves⟩ :=
    foldEntries_run hbody acc h
  refine ⟨entries', slots', world', ?_, htable, hevolves⟩
  show (foldEntries body acc entries slots >>= _) world = _
  rw [bind_ok hrun]
  rfl

theorem loop {body} (hbody : ∀ entry slot, On entry.id (stage entry slot) (body entry slot)
      (Leaves stage' entry) (fun _ _ => False)) : Carries stage stage' (forEntries body) := by
  refine fold ?_ ()
  intro acc entry slot
  exact (hbody entry slot).bind fun _ => returns_on fun _ h => h

/-- Something that neither fails nor touches a file, and then a phase. -/
theorem after {α : Type} {x} {part : α → Phase} (hx : Calm x)
    (hpart : ∀ a, Carries stage stage' (part a)) :
    Carries stage stage' (fun entries slots => do part (← x) entries slots) := by
  intro entries slots world h
  obtain ⟨a, world₁, hrun, hnext, hcaptures⟩ := hx.run world
  have htable : Table stage entries slots world₁ :=
    ⟨h.ids, h.indices, h.inside, fun entry hentry => hcaptures ▸ h.stage entry hentry⟩
  obtain ⟨entries', slots', world', hrest, htable', hevolves⟩ :=
    hpart a entries slots world₁ htable
  refine ⟨entries', slots', world', ?_, htable', ?_⟩
  · show (x >>= _) world = _
    rw [bind_ok hrun]
    exact hrest
  · refine ⟨hevolves.same, hevolves.length, hevolves.slots, hevolves.next.trans hnext, ?_⟩
    intro id hid
    rw [hevolves.captures id hid, hcaptures]

theorem bind (h : Carries stage stage' part)
    (h' : Carries stage' stage'' part') : Carries stage stage'' (Phase.andThen part part') := by
  intro entries slots world htable
  obtain ⟨entries₁, slots₁, world₁, hrun, htable₁, hevolves⟩ := h entries slots world htable
  obtain ⟨entries₂, slots₂, world₂, hrun', htable₂, hevolves'⟩ :=
    h' entries₁ slots₁ world₁ htable₁
  refine ⟨entries₂, slots₂, world₂, ?_, htable₂, hevolves.trans hevolves'⟩
  show (part entries slots >>= _) world = _
  rw [bind_ok hrun]
  exact hrun'

theorem mono {part before after} (h : Carries stage stage' part)
    (hbefore : ∀ entry slot capture, before entry slot capture → stage entry slot capture)
    (hafter : ∀ entry slot capture, stage' entry slot capture → after entry slot capture) :
    Carries before after part := by
  intro entries slots world htable
  obtain ⟨entries', slots', world', hrun, htable', hevolves⟩ :=
    h entries slots world (htable.mono fun entry slot capture _ => hbefore entry slot capture)
  exact ⟨entries', slots', world', hrun,
    htable'.mono fun entry slot capture _ => hafter entry slot capture, hevolves⟩

theorem pre (h : Carries stage stage' part)
    (hbefore : ∀ entry slot capture, before entry slot capture → stage entry slot capture) :
    Carries before stage' part :=
  h.mono hbefore fun _ _ _ => id

theorem unlessAll (flag : BatchEntry → Bool) (hpart : Carries stage stage' part)
    (hidle : Carries (fun entry slot capture => flag entry = false ∧ stage entry slot capture)
      stage' idle) :
    Carries stage stage' (fun entries slots =>
      if entries.all (!flag ·) then idle entries slots else part entries slots) := by
  intro entries slots world htable
  by_cases hall : entries.all (!flag ·) = true
  · obtain ⟨entries', slots', world', hrun, hafter⟩ :=
      hidle entries slots world (htable.mono fun entry _ _ hentry h =>
        ⟨by simpa using all_eq_true.1 hall entry hentry, h⟩)
    exact ⟨entries', slots', world', by rw [← hrun]; exact congrFun (if_pos hall) world, hafter⟩
  · obtain ⟨entries', slots', world', hrun, hafter⟩ := hpart entries slots world htable
    exact ⟨entries', slots', world', by rw [← hrun]; exact congrFun (if_neg hall) world, hafter⟩

/-- Nothing is done. -/
theorem stay (h : ∀ entry slot capture, stage entry slot capture → stage' entry slot capture) :
    Carries stage stage' (fun entries slots => return (entries, slots)) := by
  intro entries slots world htable
  exact ⟨entries, slots, world, rfl,
    htable.mono fun entry slot capture _ => h entry slot capture, .refl⟩

end Carries

end Ish.Quarantine
