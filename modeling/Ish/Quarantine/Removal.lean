import Ish.Quarantine.Remove
import Ish.Quarantine.Calls

/-!
# Removing one entry keeps the law

What `remove` and `remove_after_publication` leave of their capture number: its
object is destroyed if and only if the outcome says so, and otherwise held or
back in place.
-/

namespace Ish.Quarantine

open Ish.Lib.EState (Acts attempt)

/-! ## Outcomes -/

/-- Whether an outcome says that the entry was removed. -/
def saysRemoved : Outcome → Bool
  | .ok .Removed => true
  | .ok .AlreadyAbsent => false
  | .ok .Changed => false
  | .error error => error.removed

theorem saysRemoved_ok {removal} (h : removal ≠ .Removed) :
    saysRemoved (.ok removal) = false := by
  cases removal with
  | Removed => exact absurd rfl h
  | AlreadyAbsent => rfl
  | Changed => rfl

/-- The outcome tells the truth about a capture under the law. -/
structure Settled (request : Request) (outcome : Outcome) (capture : Capture) : Prop extends
    capture.Sound request where
  truthful : saysRemoved outcome = true ↔ Destroyed capture.log

section Outcomes

variable {request : Request} {capture : Capture} {outcome : Outcome}

theorem Left.settled (h : Left request capture) (hsaid : saysRemoved outcome = false) :
    Settled request outcome capture :=
  ⟨h.toSound, by simp [hsaid, h.kept]⟩

theorem Gone.settled (h : Gone request capture) (hsaid : saysRemoved outcome = true) :
    Settled request outcome capture :=
  ⟨h.toSound, by simp [hsaid, h.destroyed]⟩

end Outcomes

/-! ## Calls that are not about the files -/

theorem authorize_skips (boundary : Boundary) : Skips (authorize boundary) := call_skips

theorem verifyParent_skips (message : String) : Skips (verifyParent message) :=
  (check_skips _).bind fun _ => check_skips message

theorem replacePublished_skips (parent : Directory) (name : Name) (before : EntryIdentity) :
    Skips (replacePublished parent name before) := by
  refine (statLive_skips parent name).bind fun found => ?_
  by_cases hfound : found ≠ before
  · rw [if_pos hfound]
    exact (Skips.throw _).bind fun _ => call_skips.bind fun _ => authorize_skips .Published
  · rw [if_neg hfound]
    exact call_skips.bind fun _ => authorize_skips .Published

theorem showsBefore_calm (parent : Directory) (name : Name) (before : EntryIdentity) :
    Calm (showsBefore parent name before) := by
  refine (statLive_skips parent name).attempt.bind fun result => ?_
  cases result with
  | ok found => exact Calm.pure _
  | error e => exact Calm.pure _

section Removal

variable {request : Request} {id : Nat} {intent : Intent} {before : EntryIdentity}

/-! ## The closure -/

theorem precheck_on (P : Capture → Prop) (parent : Directory) (name : Name) :
    On id P (precheck parent name before)
      (fun result capture => result ≠ some .Removed ∧ P capture) (fun _ => P) := by
  refine (verifyParent_skips _ id P).bind fun _ => ?_
  refine ((statLive_skips parent name).attempt id P _).bind fun result => ?_
  cases result with
  | ok found =>
    refine returns_on fun _ h => ⟨?_, h⟩
    split <;> simp
  | error e =>
    split
    · rename_i heq
      cases heq
    · exact returns_on fun _ h => ⟨by simp, h⟩
    · exact throws_on fun _ h => h

theorem captureRecorded_on (hrecords : intent.Records request.retirement) :
    On id (Fresh request) (captureRecorded request.parent intent before id)
      (fun _ => Held request) (fun _ => Unheld request) := by
  have hskip : ∀ {α : Type} {x : QuarantineM α}, Skips x →
      On id (Recorded request) x (fun _ => Recorded request) (fun _ => Unheld request) :=
    fun hx => (hx id _).error fun _ _ h => h.toUnheld
  have hrename : On id (Recorded request)
      (renameCapture request.parent request.retirement.name id .NOREPLACE)
      (fun _ => Held request) (fun _ => Unheld request) :=
    (renameCapture_on .NOREPLACE).error fun _ _ h => h.toUnheld
  have htail : On id (Recorded request) (do
      authorize .BeforeCapture
      verifyParent "source parent identity or mount changed before capture"
      renameCapture request.parent intent.name id .NOREPLACE)
      (fun _ => Held request) (fun _ => Unheld request) := by
    rw [hrecords.name]
    exact (hskip (authorize_skips _)).bind fun _ =>
      (hskip (verifyParent_skips _)).bind fun _ => hrename
  refine ((check_skips _ id (Fresh request)).error fun _ _ h => h.toUnheld).bind fun _ => ?_
  refine (publish_on hrecords).bind fun _ => ?_
  refine (hskip (authorize_skips _)).bind fun _ => ?_
  cases intent.isReplacement with
  | true => exact (hskip (replacePublished_skips _ _ _)).bind fun _ => htail
  | false => exact htail

theorem captureEntry_on (hrecords : intent.Records request.retirement) :
    On id (Fresh request) (captureEntry request.parent intent before id)
      (fun result capture => (result = none ∧ Held request capture) ∨
        ∃ removal, result = some removal ∧ removal ≠ .Removed ∧ Unheld request capture)
      (fun _ => Unheld request) := by
  refine ((precheck_on (Fresh request) request.parent intent.name).error
    fun _ _ h => h.toUnheld).bind fun result => ?_
  refine Acts.assume fun hresult => ?_
  cases result with
  | some removal =>
    exact returns_on fun _ h =>
      Or.inr ⟨removal, rfl, fun heq => hresult (heq ▸ rfl), h.toUnheld⟩
  | none =>
    exact (captureRecorded_on hrecords).bind fun _ => returns_on fun _ h => Or.inl ⟨rfl, h⟩

theorem checkCaptured_on (expected : EntryIdentity) :
    On id (Held request) (checkCaptured expected id) (fun _ => Held request)
      (fun _ => Held request) := by
  have hskip : ∀ {x : QuarantineM Unit}, Skips x →
      On id (Held request) x (fun _ => Held request) (fun _ => Held request) :=
    fun hx => hx id _
  refine (hskip (authorize_skips _)).bind fun _ => (hskip call_skips).bind fun _ => ?_
  refine (hskip (authorize_skips _)).bind fun _ => (hskip call_skips).bind fun _ => ?_
  refine (hskip (authorize_skips _)).bind fun _ => ?_
  exact statEntry_sure.bind fun _ => returns_on fun _ h => h.1

theorem putBack_on :
    On id (Left request) (putBack request.parent request.retirement.name id)
      (fun _ => Back request) (fun _ => Left request) :=
  (check_skips _ id _).bind fun _ => restore_on

/-- The unlink comes right after a check that showed the expected object. -/
theorem retire_on :
    On id (Held request) (retire request.retirement.expected id) (fun _ => Gone request)
      (fun _ => Left request) := by
  have hskip : ∀ {x : QuarantineM Unit}, Skips x →
      On id (Held request) x (fun _ => Held request) (fun _ => Left request) :=
    fun hx => (hx id _).error fun _ _ h => h.left
  refine (hskip (authorize_skips _)).bind fun _ => ?_
  refine (hskip (verifyParent_skips _)).bind fun _ => ?_
  refine (statEntry_sure.error fun _ _ h => h.left).bind fun found => ?_
  by_cases hfound : found ≠ request.retirement.expected
  · rw [if_pos hfound]
    refine Acts.bind (Q := fun _ _ => False) (throws_on fun _ h => h.1.left) fun _ => ?_
    intro _ h
    exact h.elim
  · rw [if_neg hfound]
    obtain rfl : found = request.retirement.expected := not_not.1 hfound
    refine Acts.pre ?_ fun capture h => (⟨h.1, h.2.1, h.2.2⟩ : Sure request capture)
    exact (unlinkEntry_on _).error fun _ _ h => h.2

theorem unlinkCaptured_on :
    On id (Held request)
      (unlinkCaptured request.parent request.retirement.name request.retirement.expected id)
      (fun result capture => (result = none ∧ Gone request capture) ∨
        ∃ removal, result = some removal ∧ removal ≠ .Removed ∧ Left request capture)
      (fun _ => Left request) := by
  refine ((checkCaptured_on _).error fun _ _ h => h.left).bind fun verified => ?_
  cases verified with
  | true => exact retire_on.bind fun _ => returns_on fun _ h => Or.inl ⟨rfl, h⟩
  | false =>
    refine (putBack_on.pre fun _ h => h.left).bind fun _ => ?_
    exact returns_on fun _ h => Or.inr ⟨.Changed, rfl, by simp, h.toLeft⟩

theorem finishRemoval_on :
    On id (Gone request) (finishRemoval id) (fun _ => Gone request) (fun _ => Gone request) := by
  have hskip : ∀ {x : QuarantineM Unit}, Skips x →
      On id (Gone request) x (fun _ => Gone request) (fun _ => Gone request) :=
    fun hx => hx id _
  refine (hskip (authorize_skips _)).bind fun _ => (hskip call_skips).bind fun _ => ?_
  refine (hskip (authorize_skips _)).bind fun _ => (hskip (authorize_skips _)).bind fun _ => ?_
  refine (hskip call_skips).bind fun _ => (hskip (authorize_skips _)).bind fun _ => ?_
  refine (unlinkIntent_on fun _ h => h.without_intent).bind fun _ => ?_
  refine (hskip (authorize_skips _)).bind fun _ => (hskip call_skips).bind fun _ => ?_
  exact hskip (authorize_skips _)

/-! ## The failure path -/

theorem succeeds_on {α : Type} {P Q R} {x : QuarantineM α}
    (hx : On id P x (fun _ => Q) (fun _ => R)) (F : IoError → Capture → Prop) :
    On id P (succeeds x)
      (fun result capture => (result = true ∧ Q capture) ∨ (result = false ∧ R capture)) F := by
  refine hx.attempt.bind fun result => ?_
  cases result with
  | ok a => exact returns_on fun _ h => Or.inl ⟨rfl, h⟩
  | error e => exact returns_on fun _ h => Or.inr ⟨rfl, h⟩

theorem succeeds_keeps {α : Type} {P} {x : QuarantineM α}
    (hx : On id P x (fun _ => P) (fun _ => P)) (F : IoError → Capture → Prop) :
    On id P (succeeds x) (fun _ => P) F :=
  (succeeds_on hx F).post fun _ _ h => h.elim And.right And.right

theorem restoreAfter_on (error : IoError) (F : IoError → Capture → Prop) :
    On id (Left request) (restoreAfter request.parent request.retirement.name id error)
      (fun _ => Left request) F := by
  refine (attempt_keeps ?_).bind fun result => ?_
  · refine (check_skips _ id _).bind fun _ => (restore_on.post fun _ _ h => h.toLeft).bind
      fun _ => ?_
    refine (attempt_keeps (authorize_skips .Restored id _)).bind fun result => ?_
    cases result with
    | ok _ => exact returns_on fun _ h => h
    | error e => exact throws_on fun _ h => h
  · cases result with
    | ok _ => exact returns_on fun _ h => h
    | error e => exact returns_on fun _ h => h

theorem mayClear_on (P : Capture → Prop) (parent : Directory) (F : IoError → Capture → Prop) :
    On id P (mayClear parent intent before id) (fun _ => P) F := by
  have hstat := succeeds_keeps (statIntent_keeps id P) F
  unfold mayClear
  cases intent.isReplacement with
  | false => exact hstat
  | true =>
    refine (showsBefore_calm parent intent.name before id P F).bind fun shows => ?_
    cases shows with
    | true => exact hstat
    | false => exact returns_on fun _ h => h

theorem clearAfter_on (parent : Directory) (error : IoError) (F : IoError → Capture → Prop) :
    On id (Back request) (clearAfter parent intent before id error)
      (fun _ => Back request) F := by
  refine (mayClear_on _ parent F).bind fun clears => ?_
  cases clears with
  | false => exact returns_on fun _ h => h
  | true =>
    refine (attempt_keeps clearRecord_on).bind fun result => ?_
    cases result with
    | ok _ => exact returns_on fun _ h => h
    | error e => exact returns_on fun _ h => h

/-- The report only looks, and looking keeps each of the two endings. -/
theorem reportRetained_on {P : Capture → Prop}
    (hstat : On id P (statEntry id) (fun _ => P) (fun _ => P)) (error : IoError)
    (F : IoError → Capture → Prop) : On id P (reportRetained id error) (fun _ => P) F := by
  refine (succeeds_keeps (statIntent_keeps id P) F).bind fun record_exists => ?_
  refine (succeeds_keeps (statPending_keeps id P) F).bind fun pending_exists => ?_
  cases record_exists || pending_exists with
  | false => exact returns_on fun _ h => h
  | true =>
    refine (requireRecovery_calm id P F).bind fun _ => ?_
    exact (succeeds_keeps hstat F).bind fun _ => returns_on fun _ h => h

theorem failRemoval_uncaptured (parent : Directory) (error : IoError) :
    On id (Back request) (failRemoval parent intent before id false false error)
      (Settled request) (fun _ _ => False) := by
  refine (clearAfter_on parent _ _).bind fun error => ?_
  refine ((reportRetained_on statEntry_left error _).pre fun _ h => h.toLeft).bind fun _ => ?_
  exact returns_on fun _ h => h.settled rfl

theorem failRemoval_captured (hrecords : intent.Records request.retirement) (error : IoError) :
    On id (Left request) (failRemoval request.parent intent before id true false error)
      (Settled request) (fun _ _ => False) := by
  unfold failRemoval
  rw [hrecords.name]
  refine (restoreAfter_on _ _).bind fun error => ?_
  refine (reportRetained_on statEntry_left error _).bind fun _ => ?_
  exact returns_on fun _ h => h.settled rfl

theorem failRemoval_removed (parent : Directory) (error : IoError) :
    On id (Gone request) (failRemoval parent intent before id true true error)
      (Settled request) (fun _ _ => False) := by
  refine (Calm.pure _ id _ _).bind fun error => ?_
  refine (reportRetained_on ?_ error _).bind fun _ => returns_on fun _ h => h.settled rfl
  exact (statEntry_absent fun _ h => h.no_entry).post fun _ _ h => h.elim

/-- From the unlink on. -/
theorem removeEntry_removed (parent : Directory) :
    On id (Gone request) (do
        match ← attempt (finishRemoval id) with
        | .error error => failRemoval parent intent before id true true error
        | .ok () => return .ok .Removed)
      (Settled request) (fun _ _ => False) := by
  refine finishRemoval_on.attempt.bind fun result => ?_
  cases result with
  | error e => exact failRemoval_removed parent e
  | ok _ => exact returns_on fun _ h => h.settled rfl

theorem removeEntry_captured (hrecords : intent.Records request.retirement)
    {result} :
    On id (Acts.Either (fun result capture => (result = none ∧ Gone request capture) ∨
        ∃ removal, result = some removal ∧ removal ≠ .Removed ∧ Left request capture)
      (fun _ => Left request) result)
      (match result with
        | .error error => failRemoval request.parent intent before id true false error
        | .ok (some removal) => return .ok removal
        | .ok none => do
          match ← attempt (finishRemoval id) with
          | .error error => failRemoval request.parent intent before id true true error
          | .ok () => return .ok .Removed)
      (Settled request) (fun _ _ => False) := by
  cases result with
  | error e => exact failRemoval_captured hrecords e
  | ok removal =>
    cases removal with
    | some removal =>
      refine returns_on fun capture h => ?_
      rcases h with ⟨hnone, _⟩ | ⟨other, hother, hne, hleft⟩
      · cases hnone
      · cases hother
        exact hleft.settled (saysRemoved_ok hne)
    | none =>
      refine (removeEntry_removed request.parent).pre fun capture h => ?_
      rcases h with ⟨_, hgone⟩ | ⟨removal, hnone, _⟩
      · exact hgone
      · cases hnone

/-- **One removal** keeps the law on its capture number, and tells the truth. -/
theorem removeEntry_on (hrecords : intent.Records request.retirement) :
    On id (Fresh request)
      (removeEntry request.parent intent request.retirement.expected before id)
      (Settled request) (fun _ _ => False) := by
  rw [removeEntry, hrecords.name]
  refine (captureEntry_on hrecords).attempt.bind fun result => ?_
  cases result with
  | error e => exact (failRemoval_uncaptured request.parent e).pre fun _ h => h.back
  | ok removal =>
    cases removal with
    | some removal =>
      refine returns_on fun capture h => ?_
      rcases h with ⟨hnone, _⟩ | ⟨other, hother, hne, hunheld⟩
      · cases hnone
      · cases hother
        exact hunheld.back.toLeft.settled (saysRemoved_ok hne)
    | none =>
      refine Acts.pre (P := Held request) ?_ fun capture h => ?_
      · refine unlinkCaptured_on.attempt.bind fun result => ?_
        exact removeEntry_captured hrecords
      · rcases h with ⟨_, hheld⟩ | ⟨removal, hnone, _⟩
        · exact hheld
        · cases hnone

end Removal

end Ish.Quarantine
