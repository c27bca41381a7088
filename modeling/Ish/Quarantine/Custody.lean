import Ish.Quarantine.World

/-!
# Custody of a captured object

What a session may do to the object of one capture number, as a law on the log
of what it has done: it takes one object, under the name of its request; it
destroys it only after a check that showed the expected object; it puts it back
under the name it was taken from, where nothing is. An object that was taken and
not destroyed is then held, or was put back.
-/

namespace Ish.Quarantine

/-! ## The law -/

structure Hold where
  parent : Directory
  name : Name
  object : EntryIdentity

/-- What is held, and where it was taken. -/
def held : List Effect → Option Hold
  | [] => none
  | .captured parent name object :: _ => some { parent, name, object }
  | .unlinked _ :: _ => none
  | .restored _ _ _ _ :: _ => none
  | .checked _ :: log => held log
  | .unrestored :: log => held log
  | .attempted :: log => held log

/-- What the last check since the capture showed. -/
def lastCheck : List Effect → Option EntryIdentity
  | [] => none
  | .captured _ _ _ :: _ => none
  | .checked object :: _ => some object
  | .unlinked _ :: log => lastCheck log
  | .restored _ _ _ _ :: log => lastCheck log
  | .unrestored :: log => lastCheck log
  | .attempted :: log => lastCheck log

/-- What may be done next for a request. -/
def Allowed (request : Request) (log : List Effect) : Effect → Prop
  | .captured parent name _ =>
    log = [] ∧ parent = request.parent ∧ name = request.retirement.name
  | .checked object => ∃ hold, held log = some hold ∧ hold.object = object
  | .unlinked object =>
    (∃ hold, held log = some hold ∧ hold.object = object) ∧
      lastCheck log = some object ∧ object = request.retirement.expected
  | .restored parent name object replaced =>
    held log = some { parent, name, object } ∧ replaced = none
  | .unrestored => True
  | .attempted => True

def Lawful (request : Request) : List Effect → Prop
  | [] => True
  | effect :: log => Allowed request log effect ∧ Lawful request log

def Destroyed (log : List Effect) : Prop := ∃ object, .unlinked object ∈ log

/-- A batch came to the unlink of an object that had failed its check and could
not be put back. -/
def GivenUp (log : List Effect) : Prop := .unrestored ∈ log ∧ .attempted ∈ log

theorem Lawful.split :
    ∀ {later : List Effect}, Lawful request (later ++ effect :: earlier) →
      Allowed request earlier effect
  | [], h => h.1
  | _ :: _, h => Lawful.split h.2

/-- **Nothing gets lost**: an object that was taken is destroyed, put back under
its name, or held. -/
theorem Lawful.captured (h : Lawful request log)
    (hmem : .captured parent name object ∈ log) :
    .unlinked object ∈ log ∨ .restored parent name object none ∈ log ∨
      held log = some { parent, name, object } := by
  induction log with
  | nil => cases hmem
  | cons effect log ih =>
    obtain ⟨hallowed, hlawful⟩ := h
    rcases List.mem_cons.1 hmem with heq | hrest
    · subst heq
      exact Or.inr (Or.inr rfl)
    · rcases ih hlawful hrest with hgone | hback | hheld
      · exact Or.inl (List.mem_cons_of_mem _ hgone)
      · exact Or.inr (Or.inl (List.mem_cons_of_mem _ hback))
      · cases effect with
        | captured => rw [hallowed.1] at hrest; cases hrest
        | checked => exact Or.inr (Or.inr hheld)
        | unlinked found =>
          obtain ⟨⟨hold, hhold, hobject⟩, _⟩ := hallowed
          rw [hheld] at hhold
          cases hhold
          exact Or.inl (hobject ▸ List.mem_cons_self)
        | restored parent' name' object' replaced =>
          obtain ⟨hhold, hreplaced⟩ := hallowed
          rw [hheld] at hhold
          cases hhold
          subst hreplaced
          exact Or.inr (Or.inl List.mem_cons_self)
        | unrestored => exact Or.inr (Or.inr hheld)
        | attempted => exact Or.inr (Or.inr hheld)

theorem Lawful.not_destroyed (h : Lawful request log) (hheld : held log = some hold) : ¬ Destroyed log := by
  induction log with
  | nil => cases hheld
  | cons effect log ih =>
    obtain ⟨hallowed, hlawful⟩ := h
    rintro ⟨object, hmem⟩
    rcases List.mem_cons.1 hmem with heq | hrest
    · subst heq
      cases hheld
    · cases effect with
      | captured => rw [hallowed.1] at hrest; cases hrest
      | checked => exact ih hlawful hheld ⟨object, hrest⟩
      | unlinked => cases hheld
      | restored => cases hheld
      | unrestored | attempted => exact ih hlawful hheld ⟨object, hrest⟩

theorem Lawful.hold_home (h : Lawful request log) (hheld : held log = some hold) :
    hold.parent = request.parent ∧ hold.name = request.retirement.name := by
  induction log with
  | nil => cases hheld
  | cons effect log ih =>
    cases effect with
    | captured =>
      cases hheld
      exact h.1.2
    | checked => exact ih h.2 hheld
    | unlinked => cases hheld
    | restored => cases hheld
    | unrestored => exact ih h.2 hheld
    | attempted => exact ih h.2 hheld

/-! ## Captures under the law -/

/-- An intent record is the record of a request. -/
structure Intent.Records (intent : Intent) (retirement : Retirement) : Prop where
  parents : intent.parents = retirement.parents
  name : intent.name = retirement.name
  expected : intent.expected = some retirement.expected

/-- The files of a capture number agree with a lawful log, and what is held has
its intent record. -/
structure Capture.Sound (capture : Capture) (request : Request) : Prop where
  assigned : capture.request = some request
  lawful : Lawful request capture.log
  entry : capture.entry = (held capture.log).map Hold.object
  recorded : ∀ hold, held capture.log = some hold →
    ∃ intent, capture.intent = some (some intent) ∧ intent.Records request.retirement

/-- Nothing was taken yet. -/
structure Unheld (request : Request) (capture : Capture) : Prop where
  assigned : capture.request = some request
  entry : capture.entry = none
  log : capture.log = []

/-- Nothing was taken yet, and there is no intent record. -/
structure Fresh (request : Request) (capture : Capture) : Prop extends
    Unheld request capture where
  no_intent : capture.intent = none

/-- Nothing was taken yet, and the intent record is there. -/
structure Recorded (request : Request) (capture : Capture) : Prop extends
    Unheld request capture where
  recorded : ∃ intent, capture.intent = some (some intent) ∧
    intent.Records request.retirement

/-- Not destroyed: not taken, held, or put back. -/
structure Left (request : Request) (capture : Capture) : Prop extends
    capture.Sound request where
  kept : ¬ Destroyed capture.log

structure Held (request : Request) (capture : Capture) : Prop extends
    capture.Sound request where
  held : ∃ hold, held capture.log = some hold

/-- Held, and the last check showed the expected object. -/
structure Sure (request : Request) (capture : Capture) : Prop extends
    Held request capture where
  entry_expected : capture.entry = some request.retirement.expected
  check : lastCheck capture.log = some request.retirement.expected

/-- Put back, or never taken. -/
structure Back (request : Request) (capture : Capture) : Prop extends
    Left request capture where
  no_entry : capture.entry = none

structure Gone (request : Request) (capture : Capture) : Prop extends
    capture.Sound request where
  destroyed : Destroyed capture.log

section States

variable {request : Request} {capture : Capture}

theorem Unheld.back (h : Unheld request capture) : Back request capture where
  assigned := h.assigned
  lawful := by rw [h.log]; trivial
  entry := by rw [h.log]; exact h.entry
  recorded := by
    rw [h.log]
    intro hold hhold
    cases hhold
  kept := by
    rw [h.log]
    rintro ⟨object, hmem⟩
    cases hmem
  no_entry := h.entry

theorem Held.left (h : Held request capture) : Left request capture where
  toSound := h.toSound
  kept := by
    obtain ⟨hold, hhold⟩ := h.held
    exact h.lawful.not_destroyed hhold

theorem Back.not_held (h : Back request capture) : held capture.log = none := by
  have hentry := h.entry
  rw [h.no_entry] at hentry
  exact Option.map_eq_none_iff.1 hentry.symm

theorem Gone.not_held (h : Gone request capture) : held capture.log = none := by
  cases hheld : held capture.log with
  | none => rfl
  | some hold => exact absurd h.destroyed (h.lawful.not_destroyed hheld)

theorem Gone.no_entry (h : Gone request capture) : capture.entry = none := by
  rw [h.entry, h.not_held]
  rfl

theorem Capture.Sound.hold (h : capture.Sound request)
    (hentry : capture.entry = some object) :
    held capture.log = some { parent := request.parent, name := request.retirement.name
                              object } := by
  have hmap := h.entry
  rw [hentry] at hmap
  obtain ⟨hold, hhold, hobject⟩ := Option.map_eq_some_iff.1 hmap.symm
  obtain ⟨hparent, hname⟩ := h.lawful.hold_home hhold
  rw [hhold, ← hobject, ← hparent, ← hname]

end States

end Ish.Quarantine
