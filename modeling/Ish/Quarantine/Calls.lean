import Ish.Quarantine.Custody

/-!
# What each call does to a capture

One triple for each call, about the files of one capture number; the files of
the others stay as they are. Calls that are not about the files of a capture
number keep every condition on them.
-/

namespace Ish.Quarantine

open Ish.Lib.EState (Acts Meets attempt bind_ok bind_error)

/-! ## Triples on one capture number -/

/-- Only the files of `id` may differ. -/
def Same (id : Nat) (world world' : World) : Prop :=
  world'.next = world.next ∧ ∀ other, other ≠ id → world'.captures other = world.captures other

instance (id : Nat) : Std.Refl (Same id) where
  refl _ := ⟨rfl, fun _ _ => rfl⟩

instance (id : Nat) : IsTrans World (Same id) where
  trans _ _ _ h h' := by
    refine ⟨h'.1.trans h.1, ?_⟩
    intro other hother
    rw [h'.2 other hother, h.2 other hother]

section Triples

variable {α β : Type} {id : Nat} {P : Capture → Prop} {Q : α → Capture → Prop}
  {F : IoError → Capture → Prop}

/-- A triple about the files of `id`. -/
abbrev On (id : Nat) (P : Capture → Prop) (x : QuarantineM α) (Q : α → Capture → Prop)
    (F : IoError → Capture → Prop) : Prop :=
  Acts (Same id) (fun world => world.captures id) P x Q F

theorem returns_on (h : ∀ capture, P capture → Q a capture) : On id P (pure a) Q F :=
  Acts.pureRule h

theorem throws_on (h : ∀ capture, P capture → F e capture) : On id P (throw e) Q F :=
  Acts.throwRule h

/-- A computation that leaves the files of every capture number alone. -/
def Skips (x : QuarantineM α) : Prop :=
  ∀ id P, On id P x (fun _ => P) (fun _ => P)

variable {x : QuarantineM α}

theorem Skips.bind {f : α → QuarantineM β} (hx : Skips x)
    (hf : ∀ a, Skips (f a)) : Skips (x >>= f) :=
  fun id P => (hx id P).bind fun a => hf a id P

theorem Skips.pure (a : α) : Skips (Pure.pure a) :=
  fun _ _ => returns_on fun _ h => h

theorem Skips.throw (error : IoError) : Skips (MonadExcept.throw error : QuarantineM α) :=
  fun _ _ => throws_on fun _ h => h

/-- A computation that also never fails. -/
def Calm (x : QuarantineM α) : Prop :=
  ∀ id P F, On id P x (fun _ => P) F

/-- After an attempt only the condition is left, whatever its result. -/
theorem attempt_keeps (hx : On id P x (fun _ => P) (fun _ => P)) :
    On id P (attempt x) (fun _ => P) F := by
  refine hx.attempt.post ?_
  intro result capture h
  cases result with
  | ok a => exact h
  | error e => exact h

theorem Skips.attempt (hx : Skips x) : Calm (attempt x) :=
  fun id P _ => attempt_keeps (hx id P)

theorem Calm.bind {f : α → QuarantineM β} (hx : Calm x)
    (hf : ∀ a, Calm (f a)) : Calm (x >>= f) :=
  fun id P F => (hx id P F).bind fun a => hf a id P F

theorem Calm.pure (a : α) : Calm (Pure.pure a) :=
  fun _ _ _ => returns_on fun _ h => h

/-- Every file is as it was. -/
theorem Calm.run (hx : Calm x) (world : World) :
    ∃ a world', x world = .ok a world' ∧ world'.next = world.next ∧
      world'.captures = world.captures := by
  obtain ⟨a, world', hrun, ⟨hnext, _⟩, _⟩ := (hx 0 (fun _ => True) (fun _ _ => False)).returns
    (s := world) trivial
  refine ⟨a, world', hrun, hnext, ?_⟩
  funext id
  obtain ⟨_, _, hrun', _, hsame⟩ :=
    (hx id (fun capture => capture = world.captures id) (fun _ _ => False)).returns
      (s := world) rfl
  rw [hrun] at hrun'
  cases hrun'
  exact hsame

theorem call_on (id : Nat) (P : Capture → Prop) :
    On id P call (fun _ => P) (fun e capture => e ≠ .os .NOENT ∧ P capture) := by
  intro world h
  unfold call
  cases hfailure : (world.turns world.clock).failure with
  | none => exact ⟨⟨rfl, fun _ _ => rfl⟩, h⟩
  | some n => exact ⟨⟨rfl, fun _ _ => rfl⟩, by simp, h⟩

theorem call_skips : Skips call :=
  fun id P => (call_on id P).error fun _ _ h => h.2

theorem check_skips (message : String) : Skips (check message) := by
  intro id P world h
  have hcall := call_skips id P world h
  unfold check
  cases hr : call world with
  | ok a world' =>
    rw [hr] at hcall
    exact hcall
  | error e world' =>
    rw [hr] at hcall
    split
    · rename_i heq
      cases heq
      exact hcall
    · exact hcall

/-- What is asked of a call on the files: its value and the files it leaves, or
its error. -/
def Capture.Ends (Q : α → Capture → Prop) (F : IoError → Capture → Prop) (capture : Capture) :
    Except IoError (α × Capture) → Prop
  | .ok (a, capture') => Q a capture'
  | .error e => F e capture

theorem onCapture_on
    (h : ∀ capture, P capture → capture.Ends Q F (f capture)) : On id P (onCapture id f) Q F := by
  intro world hP
  have hends := h _ hP
  unfold onCapture
  cases hf : f (world.captures id) with
  | error e =>
    rw [hf] at hends
    exact ⟨⟨rfl, fun _ _ => rfl⟩, hends⟩
  | ok result =>
    obtain ⟨a, capture⟩ := result
    rw [hf] at hends
    refine ⟨⟨rfl, fun other hother => if_neg hother⟩, ?_⟩
    show Q a (if id = id then capture else world.captures id)
    rw [if_pos rfl]
    exact hends

theorem turn_on
    (h : ∀ capture, P capture → capture.Ends Q F (f capture))
    (hcall : ∀ e capture, e ≠ .os .NOENT → P capture → F e capture) :
    On id P (do call; onCapture id f) Q F :=
  ((call_on id P).error fun e capture hP => hcall e capture hP.1 hP.2).bind
    fun _ => onCapture_on h

theorem live_on (hf : ∀ world, (f world).next = world.next ∧
    (f world).captures = world.captures) : Calm (modify f : QuarantineM Unit) := by
  intro id P F world h
  obtain ⟨hnext, hcaptures⟩ := hf world
  refine ⟨⟨hnext, fun other _ => by rw [hcaptures]⟩, ?_⟩
  show P ((f world).captures id)
  rw [hcaptures]
  exact h

theorem get_on (h : ∀ world, On id P (f world) Q F) :
    On id P (get >>= f) Q F :=
  fun world hP => h world world hP

theorem requireRecovery_calm : Calm requireRecovery :=
  live_on fun _ => ⟨rfl, rfl⟩

end Triples

/-! ## Calls that only look -/

theorem statLive_skips (parent : Directory) (name : Name) : Skips (statLive parent name) := by
  refine call_skips.bind fun _ id P => get_on fun world => ?_
  cases orNoent (world.live parent name) with
  | ok object => exact Skips.pure object id P
  | error error => exact Skips.throw error id P

theorem statIntent_keeps (id : Nat) (P : Capture → Prop) :
    On id P (statIntent id) (fun _ => P) (fun _ => P) := by
  refine turn_on ?_ fun _ _ _ h => h
  intro capture h
  show capture.Ends _ _ (orNoent capture.intent >>= fun _ => pure ((), capture))
  cases capture.intent with
  | none => exact h
  | some record => exact h

theorem statPending_keeps (id : Nat) (P : Capture → Prop) :
    On id P (statPending id) (fun _ => P) (fun _ => P) := by
  refine turn_on ?_ fun _ _ _ h => h
  intro capture h
  show capture.Ends _ _ (orNoent capture.pending >>= fun _ => pure ((), capture))
  cases capture.pending with
  | none => exact h
  | some record => exact h

/-! ## Records -/

section Specs

variable {request : Request} {id : Nat}

/-- Written, and not yet under its final name. -/
structure Pending (request : Request) (intent : Intent) (capture : Capture) : Prop extends
    Fresh request capture where
  pending : capture.pending = some (some intent)

theorem writePending_on (intent : Intent) :
    On id (Fresh request) (writePending id intent) (fun _ => Pending request intent)
      (fun _ => Fresh request) := by
  have hcreate : On id (Fresh request)
      (do call
          onCapture id fun capture => do
            allowTarget .NOREPLACE capture.pending
            return ((), { capture with pending := some none }))
      (fun _ => Fresh request) (fun _ => Fresh request) := by
    refine turn_on ?_ fun _ _ _ h => h
    intro capture h
    show capture.Ends _ _ (allowTarget .NOREPLACE capture.pending >>= _)
    cases hallow : allowTarget .NOREPLACE capture.pending with
    | error e => exact h
    | ok _ => exact ⟨⟨h.assigned, h.entry, h.log⟩, h.no_intent⟩
  have hwrite : On id (Fresh request)
      (onCapture id fun capture => .ok ((), { capture with pending := some (some intent) }))
      (fun _ => Pending request intent) (fun _ => Fresh request) :=
    onCapture_on fun capture h => ⟨⟨⟨h.assigned, h.entry, h.log⟩, h.no_intent⟩, rfl⟩
  have hcall := call_skips id (Fresh request)
  have hall := hcreate.bind fun _ => hcall.bind fun _ => hcall.bind fun _ => hwrite
  rw [bind_assoc] at hall
  exact hall

theorem renamePending_on (hrecords : intent.Records request.retirement)
    (flags : RenameFlags) :
    On id (Pending request intent) (renamePending id flags) (fun _ => Recorded request)
      (fun _ => Fresh request) := by
  refine turn_on ?_ fun _ _ _ h => h.toFresh
  intro capture h
  show capture.Ends _ _ (orNoent capture.pending >>= _)
  rw [h.pending]
  show capture.Ends _ _ (allowTarget flags capture.intent >>= _)
  cases allowTarget flags capture.intent with
  | error e => exact h.toFresh
  | ok _ => exact ⟨⟨h.assigned, h.entry, h.log⟩, intent, rfl, hrecords⟩

theorem publish_on (hrecords : intent.Records request.retirement) :
    On id (Fresh request) (publish id intent) (fun _ => Recorded request)
      (fun _ => Unheld request) := by
  refine ((writePending_on intent).error fun _ _ h => h.toUnheld).bind fun _ => ?_
  have hsync : On id (Pending request intent) sync (fun _ => Pending request intent)
      (fun _ => Unheld request) :=
    (call_skips id _).error fun _ _ h => h.toUnheld
  refine hsync.bind fun _ => ?_
  refine ((renamePending_on hrecords .NOREPLACE).error fun _ _ h => h.toUnheld).bind fun _ => ?_
  exact (call_skips id (Recorded request)).error fun _ _ h => h.toUnheld

theorem statIntent_fresh :
    On id (Fresh request) (statIntent id) (fun _ _ => False) (fun _ => Fresh request) := by
  refine turn_on ?_ fun _ _ _ h => h
  intro capture h
  show capture.Ends _ _ (orNoent capture.intent >>= _)
  rw [h.no_intent]
  exact h

theorem unlinkPending_on
    (hP : ∀ capture record, P capture → P { capture with pending := record }) :
    On id P (unlinkPending id) (fun _ => P) (fun _ => P) := by
  refine turn_on ?_ fun _ _ _ h => h
  intro capture h
  show capture.Ends _ _ (orNoent capture.pending >>= _)
  cases capture.pending with
  | none => exact h
  | some record => exact hP _ _ h

theorem unlinkIntent_on
    (hP : ∀ capture, P capture → P { capture with intent := none }) :
    On id P (unlinkIntent id) (fun _ => P) (fun _ => P) := by
  refine turn_on ?_ fun _ _ _ h => h
  intro capture h
  show capture.Ends _ _ (orNoent capture.intent >>= _)
  cases capture.intent with
  | none => exact h
  | some record => exact hP _ h

/-! ## The object -/

theorem renameCapture_on (flags : RenameFlags) :
    On id (Recorded request)
      (renameCapture request.parent request.retirement.name id flags)
      (fun _ => Held request) (fun _ => Recorded request) := by
  refine (call_skips id (Recorded request)).bind fun _ => get_on fun world => ?_
  have htake : On id (Recorded request)
      (onCapture id fun capture => do
        let object ← orNoent (world.live request.parent request.retirement.name)
        allowTarget flags capture.entry
        return ((), { capture with
          entry := some object
          log := .captured request.parent request.retirement.name object :: capture.log }))
      (fun _ => Held request) (fun _ => Recorded request) := by
    refine onCapture_on fun capture h => ?_
    cases orNoent (world.live request.parent request.retirement.name) with
    | error e => exact h
    | ok object =>
      show capture.Ends _ _ (allowTarget flags capture.entry >>= _)
      cases allowTarget flags capture.entry with
      | error e => exact h
      | ok _ =>
        have hlog : Lawful request
            (.captured request.parent request.retirement.name object :: capture.log) := by
          rw [h.log]
          exact ⟨⟨rfl, rfl, rfl⟩, trivial⟩
        exact ⟨⟨h.assigned, hlog, rfl, fun _ _ => h.recorded⟩, _, rfl⟩
  exact htake.bind fun _ => live_on (fun _ => ⟨rfl, rfl⟩) id _ (fun _ => Recorded request)

variable {capture : Capture}

theorem Capture.Sound.checked (h : capture.Sound request) (hentry : capture.entry = some object) :
    Capture.Sound { capture with
      entry := some object, log := .checked object :: capture.log } request where
  assigned := h.assigned
  lawful := ⟨⟨_, h.hold hentry, rfl⟩, h.lawful⟩
  entry := hentry.symm.trans h.entry
  recorded := h.recorded

theorem statEntry_sure :
    On id (Held request) (statEntry id)
      (fun object capture => Held request capture ∧ capture.entry = some object ∧
        lastCheck capture.log = some object)
      (fun _ => Held request) := by
  refine turn_on ?_ fun _ _ _ h => h
  intro capture h
  show capture.Ends _ _ (orNoent capture.entry >>= _)
  cases hentry : capture.entry with
  | none => exact h
  | some object => exact ⟨⟨h.checked hentry, h.held⟩, rfl, rfl⟩

theorem statEntry_left :
    On id (Left request) (statEntry id) (fun _ => Left request) (fun _ => Left request) := by
  refine turn_on ?_ fun _ _ _ h => h
  intro capture h
  show capture.Ends _ _ (orNoent capture.entry >>= _)
  cases hentry : capture.entry with
  | none => exact h
  | some object =>
    refine ⟨h.checked hentry, ?_⟩
    rintro ⟨other, hmem⟩
    rcases List.mem_cons.1 hmem with heq | hmem
    · cases heq
    · exact h.kept ⟨other, hmem⟩

/-- There is no object to be seen. -/
theorem statEntry_absent (hP : ∀ capture, P capture → capture.entry = none) :
    On id P (statEntry id) (fun _ _ => False) (fun _ => P) := by
  refine turn_on ?_ fun _ _ _ h => h
  intro capture h
  show capture.Ends _ _ (orNoent capture.entry >>= _)
  rw [hP capture h]
  exact h

theorem renameRestore_on :
    On id (Left request)
      (renameRestore id request.parent request.retirement.name .NOREPLACE)
      (fun _ => Back request) (fun _ => Left request) := by
  refine (call_skips id (Left request)).bind fun _ => get_on fun world => ?_
  have hreturn : On id (Left request)
      (onCapture id fun capture => do
        let object ← orNoent capture.entry
        allowTarget .NOREPLACE (world.live request.parent request.retirement.name)
        return (object, { capture with
          entry := none
          log := .restored request.parent request.retirement.name object
            (world.live request.parent request.retirement.name) :: capture.log }))
      (fun _ => Back request) (fun _ => Left request) := by
    refine onCapture_on fun capture h => ?_
    show capture.Ends _ _ (orNoent capture.entry >>= _)
    cases hentry : capture.entry with
    | none => exact h
    | some object =>
      show capture.Ends _ _ (allowTarget .NOREPLACE
        (world.live request.parent request.retirement.name) >>= _)
      cases hlive : world.live request.parent request.retirement.name with
      | some target => exact h
      | none =>
        refine ⟨⟨⟨h.assigned, ⟨⟨h.hold hentry, rfl⟩, h.lawful⟩, rfl, ?_⟩, ?_⟩, rfl⟩
        · intro hold hhold
          cases hhold
        · rintro ⟨other, hmem⟩
          rcases List.mem_cons.1 hmem with heq | hmem
          · cases heq
          · exact h.kept ⟨other, hmem⟩
  exact hreturn.bind fun _ => live_on (fun _ => ⟨rfl, rfl⟩) id _ (fun _ => Left request)

theorem unlinkEntry_on (kind : EntryType) :
    On id (Sure request) (unlinkEntry id kind) (fun _ => Gone request)
      (fun e capture => e ≠ .os .NOENT ∧ Left request capture) := by
  refine turn_on ?_ fun _ _ he h => ⟨he, h.left⟩
  intro capture h
  show capture.Ends _ _ (orNoent capture.entry >>= _)
  rw [h.entry_expected]
  show capture.Ends _ _ (allowKind kind request.retirement.expected.kind >>= _)
  cases hkind : allowKind kind request.retirement.expected.kind with
  | error e =>
    refine ⟨?_, h.left⟩
    unfold allowKind at hkind
    split at hkind
    · cases hkind
      simp [NOTDIR]
    · split at hkind
      · cases hkind
        simp [ISDIR]
      · cases hkind
  | ok _ =>
    refine ⟨⟨h.assigned, ⟨⟨⟨_, h.hold h.entry_expected, rfl⟩, h.check, rfl⟩, h.lawful⟩, rfl,
      ?_⟩, _, List.mem_cons_self⟩
    intro hold hhold
    cases hhold

/-! ## Notes -/

theorem note_on
    (h : ∀ capture, P capture → Q { capture with log := effect :: capture.log })
    (F : IoError → Capture → Prop) : On id P (note id effect) (fun _ => Q) F :=
  onCapture_on h

theorem Left.unrestored (h : Left request capture) :
    Left request { capture with log := .unrestored :: capture.log } where
  assigned := h.assigned
  lawful := ⟨trivial, h.lawful⟩
  entry := h.entry
  recorded := h.recorded
  kept := by
    rintro ⟨object, hmem⟩
    rcases List.mem_cons.1 hmem with heq | hmem
    · cases heq
    · exact h.kept ⟨object, hmem⟩

theorem Sure.attempted (h : Sure request capture) :
    Sure request { capture with log := .attempted :: capture.log } where
  assigned := h.assigned
  lawful := ⟨trivial, h.lawful⟩
  entry := h.entry
  recorded := h.recorded
  held := h.held
  entry_expected := h.entry_expected
  check := h.check

/-! ## Putting back -/

theorem Back.without_intent (h : Back request capture) :
    Back request { capture with intent := none } where
  assigned := h.assigned
  lawful := h.lawful
  entry := h.entry
  recorded := by
    intro hold hhold
    exact absurd (h.not_held.symm.trans hhold) (by simp)
  kept := h.kept
  no_entry := h.no_entry

theorem Back.with_pending (h : Back request capture)
    (record : Option Record) : Back request { capture with pending := record } where
  assigned := h.assigned
  lawful := h.lawful
  entry := h.entry
  recorded := h.recorded
  kept := h.kept
  no_entry := h.no_entry

theorem Gone.without_intent (h : Gone request capture) :
    Gone request { capture with intent := none } where
  assigned := h.assigned
  lawful := h.lawful
  entry := h.entry
  recorded := by
    intro hold hhold
    exact absurd (h.not_held.symm.trans hhold) (by simp)
  destroyed := h.destroyed

theorem clearRecord_on :
    On id (Back request) (clearRecord id) (fun _ => Back request) (fun _ => Back request) :=
  (unlinkIntent_on fun _ h => h.without_intent).bind fun _ => call_skips id _

theorem restore_on :
    On id (Left request) (restore request.parent request.retirement.name id)
      (fun _ => Back request) (fun _ => Left request) := by
  have hcall : On id (Back request) sync (fun _ => Back request) (fun _ => Left request) :=
    (call_skips id _).error fun _ _ h => h.toLeft
  refine renameRestore_on.bind fun _ => hcall.bind fun _ => hcall.bind fun _ => ?_
  exact clearRecord_on.error fun _ _ h => h.toLeft

/-! ## Given up -/

theorem GivenUp.cons {log} (h : GivenUp log) (effect : Effect) :
    GivenUp (effect :: log) :=
  ⟨List.mem_cons_of_mem _ h.1, List.mem_cons_of_mem _ h.2⟩

theorem unlinkEntry_givenUp (kind : EntryType) :
    On id (fun capture => GivenUp capture.log) (unlinkEntry id kind)
      (fun _ capture => GivenUp capture.log) (fun _ capture => GivenUp capture.log) := by
  refine turn_on ?_ fun _ _ _ h => h
  intro capture h
  show capture.Ends _ _ (orNoent capture.entry >>= _)
  cases capture.entry with
  | none => exact h
  | some object =>
    show capture.Ends _ _ (allowKind kind object.kind >>= _)
    cases allowKind kind object.kind with
    | error e => exact h
    | ok _ => exact h.cons _

theorem renameRestore_givenUp (parent : Directory) (name : Name) (flags : RenameFlags) :
    On id (fun capture => GivenUp capture.log) (renameRestore id parent name flags)
      (fun _ capture => GivenUp capture.log) (fun _ capture => GivenUp capture.log) := by
  refine (call_skips id _).bind fun _ => get_on fun world => ?_
  have hreturn : On id (fun capture => GivenUp capture.log)
      (onCapture id fun capture => do
        let object ← orNoent capture.entry
        allowTarget flags (world.live parent name)
        return (object, { capture with
          entry := none
          log := .restored parent name object (world.live parent name) :: capture.log }))
      (fun _ capture => GivenUp capture.log) (fun _ capture => GivenUp capture.log) := by
    refine onCapture_on fun capture h => ?_
    show capture.Ends _ _ (orNoent capture.entry >>= _)
    cases capture.entry with
    | none => exact h
    | some object =>
      show capture.Ends _ _ (allowTarget flags (world.live parent name) >>= _)
      cases allowTarget flags (world.live parent name) with
      | error e => exact h
      | ok _ => exact h.cons _
  refine hreturn.bind fun object => ?_
  have hlive : Calm (modify fun world => world.setLive parent name (some object)) :=
    live_on fun _ => ⟨rfl, rfl⟩
  exact hlive id _ _

theorem restore_givenUp (parent : Directory) (name : Name) :
    On id (fun capture => GivenUp capture.log) (restore parent name id)
      (fun _ capture => GivenUp capture.log) (fun _ capture => GivenUp capture.log) := by
  have hcall := call_skips id fun capture => GivenUp capture.log
  refine (renameRestore_givenUp parent name .NOREPLACE).bind fun _ => ?_
  refine hcall.bind fun _ => hcall.bind fun _ => ?_
  exact (unlinkIntent_on fun _ h => h).bind fun _ => hcall

end Specs

end Ish.Quarantine
