import Ish.Quarantine.Loops
import Ish.Quarantine.Removal

/-!
# Removing a batch keeps the law

The stages an entry of a batch goes through, one triple for each loop body, and
from these the phases. At the end every entry is either given up, or its slot
tells the truth about an object under the law.
-/

namespace Ish.Quarantine

open Carries

open Ish.Lib.EState (Acts attempt bind_ok)

/-! ## Stages -/

/-- Whether a slot says that its entry was removed. -/
def Says (slot : Option Outcome) : Prop := ∃ outcome, slot = some outcome ∧ saysRemoved outcome

theorem not_says_none : ¬ Says none := by
  rintro ⟨outcome, hsome, _⟩
  cases hsome

theorem not_says_failure (error : IoError) : ¬ Says (some (batchFailure error)) := by
  rintro ⟨outcome, hsome, hsaid⟩
  cases hsome
  cases hsaid

theorem not_says_ok (h : removal ≠ .Removed) : ¬ Says (some (.ok removal)) := by
  rintro ⟨outcome, hsome, hsaid⟩
  cases hsome
  rw [saysRemoved_ok h] at hsaid
  cases hsaid

/-- The request of an entry. -/
def BatchEntry.request (entry : BatchEntry) (parent : Directory) : Request :=
  { index := entry.index, parent
    retirement := { parents := entry.intent.parents, name := entry.intent.name
                    expected := entry.expected } }

theorem SameEntry.request (h : SameEntry entry entry')
    (parent : Directory) : entry'.request parent = entry.request parent := by
  rw [BatchEntry.request, BatchEntry.request, h.index, h.intent, h.expected]

section Stages

variable (parent : Directory)

/-- The pending record is written. -/
def Prepared : Stage := fun entry slot capture =>
  (entry.intent.Records (entry.request parent).retirement ∧ entry.published = false ∧
    entry.captured = false ∧ entry.unlinked = false ∧ slot = none) ∧
  Pending (entry.request parent) entry.intent capture

/-- The record is under its final name, or the entry failed. -/
def Published : Stage := fun entry slot capture =>
  (entry.captured = false ∧ entry.unlinked = false) ∧
  ((entry.published = true ∧ slot = none ∧ Recorded (entry.request parent) capture) ∨
    (entry.published = false ∧ ¬ Says slot ∧ Unheld (entry.request parent) capture))

/-- The object is taken, or the entry failed. -/
def Taken : Stage := fun entry slot capture =>
  entry.unlinked = false ∧
  ((entry.captured = true ∧ slot = none ∧ Held (entry.request parent) capture) ∨
    (entry.captured = false ∧ ¬ Says slot ∧ Back (entry.request parent) capture))

/-- The object is checked, or put back, or could not be put back. -/
def Verified : Stage := fun entry slot capture =>
  entry.unlinked = false ∧
  ((entry.captured = true ∧ slot = none ∧ Sure (entry.request parent) capture) ∨
    (entry.captured = true ∧ ¬ Says slot ∧ Left (entry.request parent) capture ∧
      .unrestored ∈ capture.log) ∨
    (entry.captured = false ∧ ¬ Says slot ∧ Left (entry.request parent) capture))

/-- The object is destroyed, and the slot does not say otherwise; or it is not,
and the slot does not say so. -/
def Retired : Stage := fun entry slot capture =>
  GivenUp capture.log ∨
  (entry.unlinked = true ∧ (slot = none ∨ Says slot) ∧ Gone (entry.request parent) capture) ∨
  (entry.unlinked = false ∧ ¬ Says slot ∧ Left (entry.request parent) capture)

/-- The slot tells what became of the object. -/
def Told : Stage := fun entry slot capture =>
  GivenUp capture.log ∨
  (entry.unlinked = true ∧ Says slot ∧ Gone (entry.request parent) capture) ∨
  (entry.unlinked = false ∧ ¬ Says slot ∧ Left (entry.request parent) capture)

/-- The slot tells the truth. -/
def Final : Stage := fun entry slot capture =>
  GivenUp capture.log ∨
  (capture.Sound (entry.request parent) ∧ (Says slot ↔ Destroyed capture.log))

/-- Nothing of the entry can be destroyed any more. -/
def Spared : Stage := fun entry slot capture =>
  Left (entry.request parent) capture ∧ (entry.captured = true ∨ ¬ Says slot)

end Stages

section Bodies

variable {parent : Directory} {entry : BatchEntry} {slot : Option Outcome} {capture : Capture}

theorem Left.final (h : Left (entry.request parent) capture) (hsaid : ¬ Says slot) :
    Final parent entry slot capture :=
  Or.inr ⟨h.toSound, by simp [hsaid, h.kept]⟩

theorem Gone.final (h : Gone (entry.request parent) capture) (hsaid : Says slot) :
    Final parent entry slot capture :=
  Or.inr ⟨h.toSound, by simp [hsaid, h.destroyed]⟩

theorem Told.retired (h : Told parent entry slot capture) : Retired parent entry slot capture := by
  rcases h with hgivenUp | ⟨hunlinked, hsaid, hgone⟩ | hleft
  · exact Or.inl hgivenUp
  · exact Or.inr (Or.inl ⟨hunlinked, Or.inr hsaid, hgone⟩)
  · exact Or.inr (Or.inr hleft)

theorem Told.final (h : Told parent entry slot capture) : Final parent entry slot capture := by
  rcases h with hgivenUp | ⟨_, hsaid, hgone⟩ | ⟨_, hnot, hleft⟩
  · exact Or.inl hgivenUp
  · exact hgone.final hsaid
  · exact hleft.final hnot

theorem Taken.spared (h : Taken parent entry slot capture) : Spared parent entry slot capture := by
  obtain ⟨_, ⟨hcaptured, _, hheld⟩ | ⟨_, hsaid, hback⟩⟩ := h
  · exact ⟨hheld.left, Or.inl hcaptured⟩
  · exact ⟨hback.toLeft, Or.inr hsaid⟩

theorem Verified.spared (h : Verified parent entry slot capture) :
    Spared parent entry slot capture := by
  obtain ⟨_, ⟨hcaptured, _, hsure⟩ | ⟨_, hsaid, hleft, _⟩ | ⟨_, hsaid, hleft⟩⟩ := h
  · exact ⟨hsure.toHeld.left, Or.inl hcaptured⟩
  · exact ⟨hleft, Or.inr hsaid⟩
  · exact ⟨hleft, Or.inr hsaid⟩

/-! ## The loop bodies -/

theorem publishEntryRecord_on (entry : BatchEntry) (slot : Option Outcome) :
    On entry.id (Prepared parent entry slot) (publishEntryRecord entry slot)
      (Leaves (Published parent) entry) (fun _ _ => False) := by
  intro world h
  obtain ⟨⟨hrecords, hpublished, hcaptured, hunlinked, hslot⟩, hpending⟩ := h
  have hbody : On entry.id (Pending (entry.request parent) entry.intent)
      (publishEntryRecord entry slot) (Leaves (Published parent) entry) (fun _ _ => False) := by
    refine (renamePending_on hrecords .NOREPLACE).attempt.bind fun result => ?_
    cases result with
    | ok _ =>
      exact returns_on fun _ h => ⟨⟨rfl, rfl, rfl, rfl⟩, ⟨hcaptured, hunlinked⟩, Or.inl ⟨rfl, hslot, h⟩⟩
    | error e =>
      refine (succeeds_on statIntent_fresh _).bind fun stands => ?_
      cases stands with
      | true =>
        refine returns_on fun _ h => ?_
        rcases h with ⟨_, hno⟩ | ⟨hfalse, _⟩
        · exact hno.elim
        · cases hfalse
      | false =>
        refine Acts.pre (P := Unheld (entry.request parent)) ?_ fun _ h => ?_
        · refine (attempt_keeps (unlinkPending_on ?_)).bind fun _ => returns_on fun _ h => ?_
          · intro capture record h
            exact ⟨h.assigned, h.entry, h.log⟩
          · exact ⟨.refl _, ⟨hcaptured, hunlinked⟩,
              Or.inr ⟨hpublished, not_says_failure _, h⟩⟩
        · rcases h with ⟨_, hno⟩ | ⟨_, hfresh⟩
          · exact hno.elim
          · exact hfresh.toUnheld
  exact hbody world hpending

theorem captureBatchEntry_on (entry : BatchEntry) (slot : Option Outcome) :
    On entry.id (Published parent entry slot) (captureBatchEntry parent entry slot)
      (Leaves (Taken parent) entry) (fun _ _ => False) := by
  intro world h
  obtain ⟨⟨hcaptured, hunlinked⟩, ⟨hpublished, hslot, hrecorded⟩ | ⟨hpublished, hsaid, hunheld⟩⟩ := h
  · have hbody : On entry.id (Recorded (entry.request parent))
        (captureBatchEntry parent entry slot) (Leaves (Taken parent) entry)
        (fun _ _ => False) := by
      unfold captureBatchEntry
      rw [hpublished]
      refine (renameCapture_on .NOREPLACE).attempt.bind fun result => ?_
      have hfail : ∀ outcome, ¬ Says (some outcome) → ∀ capture,
          Recorded (entry.request parent) capture →
          Leaves (Taken parent) entry (entry, some outcome) capture := fun outcome hsaid capture h =>
        ⟨.refl _, hunlinked, Or.inr ⟨hcaptured, hsaid, h.back⟩⟩
      split
      · exact returns_on fun _ h => ⟨⟨rfl, rfl, rfl, rfl⟩, hunlinked, Or.inl ⟨rfl, hslot, h⟩⟩
      · exact returns_on (hfail _ (not_says_ok (by simp)))
      · rename_i e hne
        refine (succeeds_on (statEntry_absent fun _ h => h.entry) _).bind fun stands => ?_
        cases stands with
        | true =>
          refine returns_on fun _ h => ?_
          rcases h with ⟨_, hno⟩ | ⟨hfalse, _⟩
          · exact hno.elim
          · cases hfalse
        | false =>
          refine returns_on fun _ h => ?_
          rcases h with ⟨_, hno⟩ | ⟨_, hrecorded⟩
          · exact hno.elim
          · exact hfail _ (not_says_failure _) _ hrecorded
    exact hbody world hrecorded
  · have hbody : On entry.id (Unheld (entry.request parent))
        (captureBatchEntry parent entry slot) (Leaves (Taken parent) entry)
        (fun _ _ => False) := by
      unfold captureBatchEntry
      rw [hpublished]
      exact returns_on fun _ h => ⟨.refl _, hunlinked, Or.inr ⟨hcaptured, hsaid, h.back⟩⟩
    exact hbody world hunheld

theorem cleanupEntry_on (entry : BatchEntry) (slot : Option Outcome) :
    On entry.id (Taken parent entry slot) (cleanupEntry entry slot)
      (Leaves (Taken parent) entry) (fun _ _ => False) := by
  intro world h
  obtain ⟨hunlinked, ⟨hcaptured, hslot, hheld⟩ | ⟨hcaptured, hsaid, hback⟩⟩ := h
  · have hbody : On entry.id (Held (entry.request parent)) (cleanupEntry entry slot)
        (Leaves (Taken parent) entry) (fun _ _ => False) := by
      unfold cleanupEntry
      rw [hcaptured]
      exact returns_on fun _ h => ⟨.refl _, hunlinked, Or.inl ⟨hcaptured, hslot, h⟩⟩
    exact hbody world hheld
  · have hbody : On entry.id (Back (entry.request parent)) (cleanupEntry entry slot)
        (Leaves (Taken parent) entry) (fun _ _ => False) := by
      have hpending : On entry.id (Back (entry.request parent))
          (do
            let _ ← attempt (unlinkPending entry.id)
            return (entry, slot))
          (Leaves (Taken parent) entry) (fun _ _ => False) := by
        refine (attempt_keeps (unlinkPending_on fun _ _ h => h.with_pending _)).bind
          fun _ => ?_
        exact returns_on fun _ h => ⟨.refl _, hunlinked, Or.inr ⟨hcaptured, hsaid, h⟩⟩
      unfold cleanupEntry
      rw [hcaptured]
      cases entry.published with
      | false => exact hpending
      | true =>
        exact (attempt_keeps (unlinkIntent_on fun _ h => h.without_intent)).bind
          fun _ => hpending
    exact hbody world hback

/-- Putting an entry back after a failure. -/
theorem restoreCapturedEntry_on (error : IoError) :
    Advances (Spared parent) (Final parent) (restoreCapturedEntry parent error) := by
  intro cleanup_error entry slot world h
  obtain ⟨hleft, hflag⟩ := h
  have hbody : On entry.id (Left (entry.request parent))
      (restoreCapturedEntry parent error cleanup_error entry slot)
      (fun result => Leaves (Final parent) entry result.2) (fun _ _ => False) := by
    unfold restoreCapturedEntry
    cases hcaptured : entry.captured with
    | false =>
      rw [hcaptured] at hflag
      have hsaid : ¬ Says slot := hflag.resolve_left (by simp)
      exact returns_on fun _ h => ⟨.refl _, h.final hsaid⟩
    | true =>
      refine restore_on.attempt.bind fun result => ?_
      cases result with
      | ok _ => exact returns_on fun _ h => ⟨⟨rfl, rfl, rfl, rfl⟩, h.toLeft.final (not_says_failure _)⟩
      | error e =>
        refine (requireRecovery_calm entry.id _ _).bind fun _ => ?_
        exact returns_on fun _ h => ⟨.refl _, Left.final h (not_says_failure _)⟩
  exact hbody world hleft

/-- Putting back an object that failed its check: it may stay where it is. -/
theorem verifyEntry_failed (hunlinked : entry.unlinked = false) (hcaptured : entry.captured = true)
    (error : IoError) :
    On entry.id (Left (entry.request parent))
      (do
        match ← attempt (restore parent entry.intent.name entry.id) with
        | .ok () => return ({ entry with captured := false }, some (.ok .Changed))
        | .error restoration =>
          requireRecovery
          note entry.id .unrestored
          return (entry, some (batchFailure (appendCleanup error (some restoration)))))
      (Leaves (Verified parent) entry) (fun _ _ => False) := by
  refine restore_on.attempt.bind fun result => ?_
  cases result with
  | ok _ =>
    exact returns_on fun _ h =>
      ⟨⟨rfl, rfl, rfl, rfl⟩, hunlinked, Or.inr (Or.inr ⟨rfl, not_says_ok (by simp), h.toLeft⟩)⟩
  | error e =>
    refine (requireRecovery_calm entry.id _ _).bind fun _ => ?_
    have hnote : On entry.id (Left (entry.request parent)) (note entry.id .unrestored)
        (fun _ capture => Left (entry.request parent) capture ∧ .unrestored ∈ capture.log)
        (fun _ _ => False) :=
      note_on (fun _ h => ⟨h.unrestored, List.mem_cons_self⟩) _
    refine hnote.bind fun _ => returns_on fun _ h => ?_
    exact ⟨.refl _, hunlinked, Or.inr (Or.inl ⟨hcaptured, not_says_failure _, h⟩)⟩

theorem verifyEntry_on (entry : BatchEntry) (slot : Option Outcome) :
    On entry.id (Taken parent entry slot) (verifyEntry parent entry slot)
      (Leaves (Verified parent) entry) (fun _ _ => False) := by
  intro world h
  obtain ⟨hunlinked, ⟨hcaptured, hslot, hheld⟩ | ⟨hcaptured, hsaid, hback⟩⟩ := h
  · have hbody : On entry.id (Held (entry.request parent)) (verifyEntry parent entry slot)
        (Leaves (Verified parent) entry) (fun _ _ => False) := by
      unfold verifyEntry
      rw [hcaptured]
      refine statEntry_sure.attempt.bind fun verified => ?_
      by_cases hverified : verified = .ok entry.expected
      · rw [if_pos hverified]
        subst hverified
        refine returns_on fun capture h => ?_
        exact ⟨.refl _, hunlinked, Or.inl ⟨hcaptured, hslot, h.1, h.2.1, h.2.2⟩⟩
      · rw [if_neg hverified]
        refine (verifyEntry_failed hunlinked hcaptured _).pre fun capture h => ?_
        cases verified with
        | ok found => exact h.1.left
        | error e => exact Held.left h
    exact hbody world hheld
  · have hbody : On entry.id (Back (entry.request parent)) (verifyEntry parent entry slot)
        (Leaves (Verified parent) entry) (fun _ _ => False) := by
      unfold verifyEntry
      rw [hcaptured]
      exact returns_on fun _ h =>
        ⟨.refl _, hunlinked, Or.inr (Or.inr ⟨hcaptured, hsaid, h.toLeft⟩)⟩
    exact hbody world hback

/-- An object that was checked is destroyed, or put back. -/
theorem unlinkBatchEntry_sure (hunlinked : entry.unlinked = false)
    (hcaptured : entry.captured = true) :
    On entry.id (Sure (entry.request parent)) (unlinkBatchEntry parent entry none)
      (Leaves (Retired parent) entry) (fun _ _ => False) := by
  have hleft : ∀ {entry' : BatchEntry} {error : IoError} {capture : Capture},
      SameEntry entry entry' → entry'.unlinked = false →
      Left (entry.request parent) capture →
      Leaves (Retired parent) entry (entry', some (batchFailure error)) capture :=
    fun hsame hunlinked h =>
      ⟨hsame, Or.inr (Or.inr ⟨hunlinked, not_says_failure _, hsame.request parent ▸ h⟩)⟩
  unfold unlinkBatchEntry
  rw [hcaptured]
  refine (note_on (fun _ h => h.attempted) _).bind fun _ => ?_
  refine (unlinkEntry_on entry.expected.kind).attempt.bind fun result => ?_
  split
  · exact returns_on fun _ h => ⟨⟨rfl, rfl, rfl, rfl⟩, Or.inr (Or.inl ⟨rfl, Or.inl rfl, h⟩)⟩
  · exact returns_on fun _ h => absurd rfl h.1
  · rename_i e hne
    refine Acts.pre ?_ fun capture h => (h.2 : Left (entry.request parent) capture)
    refine restore_on.attempt.bind fun result => ?_
    cases result with
    | ok _ => exact returns_on fun _ h => hleft ⟨rfl, rfl, rfl, rfl⟩ hunlinked h.toLeft
    | error e =>
      refine (requireRecovery_calm entry.id _ _).bind fun _ => ?_
      exact returns_on fun _ h => hleft (.refl _) hunlinked h

/-- An object that failed its check and could not be put back is given up. -/
theorem unlinkBatchEntry_unrestored (hcaptured : entry.captured = true) :
    On entry.id (fun capture => .unrestored ∈ capture.log) (unlinkBatchEntry parent entry slot)
      (Leaves (Retired parent) entry) (fun _ _ => False) := by
  have hgivenUp : ∀ {entry' : BatchEntry} {slot' : Option Outcome} {capture : Capture},
      SameEntry entry entry' → GivenUp capture.log →
      Leaves (Retired parent) entry (entry', slot') capture :=
    fun hsame h => ⟨hsame, Or.inl h⟩
  unfold unlinkBatchEntry
  rw [hcaptured]
  have hnote : On entry.id (fun capture => .unrestored ∈ capture.log) (note entry.id .attempted)
      (fun _ capture => GivenUp capture.log) (fun _ _ => False) :=
    note_on (fun _ h => ⟨List.mem_cons_of_mem _ h, List.mem_cons_self⟩) _
  refine hnote.bind fun _ => ?_
  refine (attempt_keeps (unlinkEntry_givenUp entry.expected.kind)).bind fun result => ?_
  split
  · exact returns_on fun _ h => hgivenUp ⟨rfl, rfl, rfl, rfl⟩ h
  · exact returns_on fun _ h => hgivenUp ⟨rfl, rfl, rfl, rfl⟩ h
  · refine (attempt_keeps (restore_givenUp parent entry.intent.name)).bind fun result => ?_
    cases result with
    | ok _ => exact returns_on fun _ h => hgivenUp ⟨rfl, rfl, rfl, rfl⟩ h
    | error e =>
      refine (requireRecovery_calm entry.id _ _).bind fun _ => ?_
      exact returns_on fun _ h => hgivenUp ⟨rfl, rfl, rfl, rfl⟩ h

theorem unlinkBatchEntry_on (entry : BatchEntry) (slot : Option Outcome) :
    On entry.id (Verified parent entry slot) (unlinkBatchEntry parent entry slot)
      (Leaves (Retired parent) entry) (fun _ _ => False) := by
  intro world h
  obtain ⟨hunlinked, ⟨hcaptured, hslot, hsure⟩ | ⟨hcaptured, _, _, hunrestored⟩ |
    ⟨hcaptured, hsaid, hleft⟩⟩ := h
  · subst hslot
    exact unlinkBatchEntry_sure hunlinked hcaptured world hsure
  · exact unlinkBatchEntry_unrestored hcaptured world hunrestored
  · have hbody : On entry.id (Left (entry.request parent)) (unlinkBatchEntry parent entry slot)
        (Leaves (Retired parent) entry) (fun _ _ => False) := by
      unfold unlinkBatchEntry
      rw [hcaptured]
      exact returns_on fun _ h => ⟨.refl _, Or.inr (Or.inr ⟨hunlinked, hsaid, h⟩)⟩
    exact hbody world hleft

theorem retireRecord_on (entry : BatchEntry) (slot : Option Outcome) :
    On entry.id (Retired parent entry slot) (retireRecord entry slot)
      (Leaves (Retired parent) entry) (fun _ _ => False) := by
  cases hunlinked : entry.unlinked with
  | false =>
    unfold retireRecord
    rw [hunlinked]
    exact returns_on fun _ h => ⟨.refl _, h⟩
  | true =>
    have hclear : On entry.id (Retired parent entry slot) (unlinkIntent entry.id)
        (fun _ => Retired parent entry slot) (fun _ => Retired parent entry slot) := by
      refine unlinkIntent_on ?_
      intro capture h
      rcases h with hgivenUp | ⟨_, hslot, hgone⟩ | ⟨hfalse, _⟩
      · exact Or.inl hgivenUp
      · exact Or.inr (Or.inl ⟨hunlinked, hslot, hgone.without_intent⟩)
      · rw [hunlinked] at hfalse
        cases hfalse
    unfold retireRecord
    rw [hunlinked]
    refine (attempt_keeps hclear).bind fun result => ?_
    split
    · exact returns_on fun _ h => ⟨.refl _, h⟩
    · exact returns_on fun _ h => ⟨.refl _, h⟩
    · refine returns_on fun _ h => ⟨.refl _, ?_⟩
      rcases h with hgivenUp | ⟨_, _, hgone⟩ | ⟨hfalse, _⟩
      · exact Or.inl hgivenUp
      · exact Or.inr (Or.inl ⟨hunlinked, Or.inr ⟨_, rfl, rfl⟩, hgone⟩)
      · rw [hunlinked] at hfalse
        cases hfalse

/-- A loop that only fills slots. -/
theorem settleWhere_on {stage stage' : Stage} {failed : BatchEntry → Option Outcome → Bool}
    {outcome : Outcome} (h : ∀ capture, stage entry slot capture →
      stage' entry (if failed entry slot then some outcome else slot) capture) :
    On entry.id (stage entry slot) (settleWhere failed outcome entry slot)
      (Leaves stage' entry) (fun _ _ => False) :=
  returns_on fun capture hstage => ⟨.refl _, h capture hstage⟩

theorem abandonEntry_on
    (hpending : ∀ entry slot capture record, P entry slot capture →
      P entry slot { capture with pending := record })
    (hintent : ∀ entry slot capture, P entry slot capture →
      P entry slot { capture with intent := none }) :
    Advances P P abandonEntry := by
  intro trouble entry slot
  have hstay : ∀ trouble : Option IoError, On entry.id (P entry slot) (return (trouble, entry, slot))
      (fun result => Leaves P entry result.2) (fun _ _ => False) :=
    fun trouble => returns_on fun _ h => ⟨.refl _, h⟩
  refine (attempt_keeps (unlinkPending_on (hpending entry slot))).bind fun _ => ?_
  cases entry.published with
  | false => exact hstay trouble
  | true =>
    refine (attempt_keeps (unlinkIntent_on (hintent entry slot))).bind fun result => ?_
    split
    · exact hstay _
    · exact hstay _
    · exact hstay _

end Bodies

/-! ## The phases -/

section Phases

variable {parent : Directory}

theorem abandonTrouble_calm (trouble : Option IoError) : Calm (abandonTrouble trouble) := by
  refine call_skips.attempt.bind fun result => ?_
  cases result with
  | ok _ =>
    cases trouble with
    | none => exact Calm.pure _
    | some error => exact requireRecovery_calm.bind fun _ => Calm.pure _
  | error e => exact requireRecovery_calm.bind fun _ => Calm.pure _

/-- What can be abandoned: nothing is held, and the slot will not say otherwise. -/
def Abandonable (parent : Directory) (failed : BatchEntry → Bool) : Stage :=
  fun entry slot capture =>
    Back (entry.request parent) capture ∧ (failed entry = true ∨ ¬ Says slot)

theorem abandonAll_carries (failed : BatchEntry → Bool) (error : IoError) :
    Carries (Abandonable parent failed) (Final parent) (abandonAll failed error) := by
  intro entries slots world h
  have habandon : Advances (Abandonable parent failed) (Abandonable parent failed)
      abandonEntry :=
    abandonEntry_on (fun _ _ _ _ h => ⟨h.1.with_pending _, h.2⟩)
      (fun _ _ _ h => ⟨h.1.without_intent, h.2⟩)
  have hsettle : ∀ cleanup, Carries (Abandonable parent failed) (Final parent)
      (forEntries (settleWhere (fun entry _ => failed entry)
        (batchFailure (appendCleanup error cleanup)))) := by
    intro cleanup
    refine loop fun entry slot => settleWhere_on fun capture h => ?_
    by_cases hfailed : failed entry = true
    · rw [if_pos hfailed]
      exact h.1.toLeft.final (not_says_failure _)
    · rw [if_neg hfailed]
      exact h.1.toLeft.final (h.2.resolve_left hfailed)
  obtain ⟨trouble, entries₁, slots₁, world₁, hrun, htable, hevolves⟩ :=
    foldEntries_run habandon none h
  obtain ⟨entries₂, slots₂, world₂, hrun₂, htable₂, hevolves₂⟩ :=
    after (abandonTrouble_calm trouble) hsettle entries₁ slots₁ world₁ htable
  refine ⟨entries₂, slots₂, world₂, ?_, htable₂, hevolves.trans hevolves₂⟩
  rw [abandonAll, abandonBatchEntries, bind_assoc, bind_ok hrun, ← hrun₂, bind_assoc]
  rfl

theorem restoreCapturedBatch_carries (error : IoError) :
    Carries (Spared parent) (Final parent) (restoreCapturedBatch parent error) :=
  fold (restoreCapturedEntry_on error) none

theorem settleUnlinked_carries {outcome : Outcome} (hsaid : saysRemoved outcome = true) :
    Carries (Retired parent) (Told parent) (forEntries (settleUnlinked outcome)) := by
  refine loop fun entry slot => settleWhere_on fun capture h => ?_
  rcases h with hgivenUp | ⟨hunlinked, hslot, hgone⟩ | ⟨hunlinked, hnot, hleft⟩
  · exact Or.inl hgivenUp
  · refine Or.inr (Or.inl ⟨hunlinked, ?_, hgone⟩)
    rw [hunlinked]
    cases slot with
    | none => exact ⟨outcome, rfl, hsaid⟩
    | some other => exact hslot.resolve_left (by simp)
  · refine Or.inr (Or.inr ⟨hunlinked, ?_, hleft⟩)
    rw [hunlinked]
    exact hnot

theorem settleFinal_carries (hsaid : saysRemoved outcome = true) :
    Carries (Retired parent) (Final parent) (forEntries (settleUnlinked outcome)) :=
  (settleUnlinked_carries hsaid).mono (fun _ _ _ h => h) fun _ _ _ h => h.final

theorem settleUnsynced_carries (error : IoError) :
    Carries (Retired parent) (Final parent)
      (forEntries (settleWhere (fun entry _ => entry.unlinked) (unsyncedRemoval error))) := by
  refine loop fun entry slot => settleWhere_on fun capture h => ?_
  rcases h with hgivenUp | ⟨hunlinked, _, hgone⟩ | ⟨hunlinked, hnot, hleft⟩
  · exact Or.inl hgivenUp
  · rw [hunlinked]
    exact hgone.final ⟨_, rfl, rfl⟩
  · rw [hunlinked]
    exact hleft.final hnot

theorem settleBatch_carries : Carries (Retired parent) (Final parent) settleBatch := by
  refine after call_skips.attempt fun result => ?_
  cases result with
  | ok _ => exact settleFinal_carries rfl
  | error e =>
    refine bind (settleUnlinked_carries rfl) ?_
    exact (settleFinal_carries rfl).pre fun _ _ _ h => h.retired

theorem finishBatch_carries : Carries (Retired parent) (Final parent) finishBatch := by
  refine unlessAll BatchEntry.unlinked ?_ (stay ?_)
  · refine after (call_skips.bind fun _ => call_skips).attempt fun result => ?_
    cases result with
    | error e => exact after requireRecovery_calm fun _ => settleUnsynced_carries e
    | ok _ => exact bind (loop retireRecord_on) settleBatch_carries
  · intro entry slot capture h
    obtain ⟨hflag, hgivenUp | ⟨hunlinked, _⟩ | ⟨_, hnot, hleft⟩⟩ := h
    · exact Or.inl hgivenUp
    · rw [hflag] at hunlinked
      cases hunlinked
    · exact hleft.final hnot

theorem unlinkVerified_carries :
    Carries (Verified parent) (Final parent) (unlinkVerified parent) := by
  refine after (authorize_skips .BeforeUnlink).attempt fun result => ?_
  cases result with
  | error e => exact (restoreCapturedBatch_carries e).pre fun _ _ _ h => h.spared
  | ok _ => exact bind (loop unlinkBatchEntry_on) finishBatch_carries

theorem verifyCaptured_carries : Carries (Taken parent) (Final parent) (verifyCaptured parent) := by
  refine after (call_skips.bind fun _ => call_skips).attempt fun result => ?_
  cases result with
  | error e => exact (restoreCapturedBatch_carries e).pre fun _ _ _ h => h.spared
  | ok _ => exact bind (loop verifyEntry_on) unlinkVerified_carries

theorem continueCaptured_carries :
    Carries (Taken parent) (Final parent) (continueCaptured parent) := by
  refine unlessAll BatchEntry.captured verifyCaptured_carries ?_
  refine after call_skips.attempt fun _ => stay ?_
  intro entry slot capture h
  obtain ⟨hflag, _, ⟨hcaptured, _⟩ | ⟨_, hnot, hback⟩⟩ := h
  · rw [hflag] at hcaptured
    cases hcaptured
  · exact hback.toLeft.final hnot

theorem Published.abandonable
    (h : Published parent entry slot capture) :
    Abandonable parent BatchEntry.published entry slot capture := by
  obtain ⟨_, ⟨hpublished, _, hrecorded⟩ | ⟨_, hnot, hunheld⟩⟩ := h
  · exact ⟨hrecorded.back, Or.inl hpublished⟩
  · exact ⟨hunheld.back, Or.inr hnot⟩

theorem abandonPublished_carries (error : IoError) :
    Carries (Published parent) (Final parent) (abandonAll BatchEntry.published error) :=
  (abandonAll_carries _ error).pre fun _ _ _ h => h.abandonable

theorem captureBatch_carries : Carries (Published parent) (Final parent) (captureBatch parent) := by
  refine after ((authorize_skips .BeforeCapture).bind fun _ =>
    verifyParent_skips _).attempt fun result => ?_
  cases result with
  | error e => exact abandonPublished_carries e
  | ok _ =>
    exact bind (loop captureBatchEntry_on)
      (bind (loop cleanupEntry_on) continueCaptured_carries)

theorem authorizeCapture_carries :
    Carries (Published parent) (Final parent) (authorizeCapture parent) := by
  refine after call_skips.attempt fun result => ?_
  cases result with
  | error e => exact abandonPublished_carries e
  | ok _ =>
    refine after (authorize_skips .IntentPublished).attempt fun result => ?_
    cases result with
    | error e => exact abandonPublished_carries e
    | ok _ => exact captureBatch_carries

theorem continuePublished_carries :
    Carries (Published parent) (Final parent) (continuePublished parent) := by
  refine unlessAll BatchEntry.published authorizeCapture_carries (stay ?_)
  intro entry slot capture h
  obtain ⟨hflag, _, ⟨hpublished, _⟩ | ⟨_, hnot, hunheld⟩⟩ := h
  · rw [hflag] at hpublished
    cases hpublished
  · exact hunheld.back.toLeft.final hnot

/-- **The phases of a batch** take written records to slots that tell the truth. -/
theorem publishBatch_carries : Carries (Prepared parent) (Final parent) (publishBatch parent) := by
  refine after call_skips.attempt fun result => ?_
  cases result with
  | error e =>
    refine (abandonAll_carries _ e).pre fun _ _ _ h => ?_
    exact ⟨h.2.toUnheld.back, Or.inl rfl⟩
  | ok _ => exact bind (loop publishEntryRecord_on) continuePublished_carries

end Phases

end Ish.Quarantine
