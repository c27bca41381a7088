import Ish.Denv.Session

/-!
# The environment of a place

A shell visits directories and refreshes in each. Nothing else changes its variables,
and during a refresh nothing changes the files, so the calls of a visit are functions.
The invariant of the visits is `At`: apart from denv's own variables the store is the
one at the start, or the start with the diff of one earlier visit applied, of which the
active record can take it back.
-/

namespace Ish.Denv

open Ish.Epsh Ish.Lib EState

/-- What a refresh meets: the files, the trust in them, and where it runs. -/
structure Visit where
  host : Host Unit
  allow : Text → Option ShellBytes
  cwd : Path
  force : Bool

def Visit.arrive (visit : Visit) (m : Machine Unit) : Machine Unit :=
  { m with allow := visit.allow, cwd := visit.cwd }

def Visit.refresh (visit : Visit) (m : Machine Unit) :
    EStateM.Result Text (Machine Unit) (List EnvChange) :=
  Denv.refresh visit.host visit.force (visit.arrive m)

def runVisits (visits : List Visit) (m : Machine Unit) : Machine Unit :=
  visits.foldl (fun m visit => after (visit.refresh m)) m

/-! ## Running the parts of a refresh -/

theorem call_run {α : Type} (x : StateM Unit α) (m : Machine Unit) :
    call x m = .ok (x ()).1 m := rfl

variable {m m' : Machine Unit}

theorem call_unit {α : Type} {x : StateM Unit α} {a}
    (h : call x m = .ok a m') : a = (x ()).1 ∧ m' = m := by
  rw [call_run] at h
  cases h
  exact ⟨rfl, rfl⟩

theorem get_unit (h : (get : DenvM Unit _) m = .ok s m') :
    s = m ∧ m' = m := by
  cases h
  exact ⟨rfl, rfl⟩

theorem ofExcept_eq_ok {W α : Type} {x} {m m' : Machine W} {a : α} :
    ofExcept x m = .ok a m' ↔ x = .ok a ∧ m' = m := by
  cases x with
  | ok b =>
    constructor
    · intro h
      cases h
      exact ⟨rfl, rfl⟩
    · rintro ⟨h, rfl⟩
      cases h
      rfl
  | error e =>
    constructor
    · nofun
    · exact fun h => nomatch h.1

/-- What a look around finds, call by call. -/
structure Looks (visit : Visit) (look : Look) : Prop where
  found : (findEnvFiles visit.host visit.cwd ()).1 = look.found
  envrc : (candidate visit.host (look.found.bind (·.envrc)) ()).1 = .ok look.envrc_file
  dotenv : (candidate visit.host (look.found.bind (·.dotenv)) ()).1 = .ok look.dotenv_file
  blocked : (firstBlocked visit.host visit.allow look.files ()).1 = look.blocked
  entries : look.blocked = none → ∀ file, look.dotenv_file = some file →
    loadDotenvEntries visit.host.utf8Error file.bytes = .ok look.dotenv_entries
  no_entries : look.dotenv_file = none → look.dotenv_entries = []

theorem dotenvEntries_ok {host files}
    {blocked dotenv_file : Option TrustCandidate} {entries : List (Text × Text)}
    (h : dotenvEntries host files blocked dotenv_file m = .ok entries m') :
    (∃ log, m' = { m with log }) ∧
      (blocked = none → ∀ file, dotenv_file = some file →
        loadDotenvEntries host.utf8Error file.bytes = .ok entries) ∧
      (dotenv_file = none → entries = []) := by
  cases blocked with
  | some file =>
    cases h
    exact ⟨⟨m.log, rfl⟩, nofun, fun _ => rfl⟩
  | none =>
    cases dotenv_file with
    | none =>
      cases h
      exact ⟨⟨m.log, rfl⟩, fun _ => nofun, fun _ => rfl⟩
    | some file =>
      obtain ⟨_, m1, hnote, hload⟩ := bind_eq_ok.mp h
      cases hnote
      obtain ⟨hentries, rfl⟩ := ofExcept_eq_ok.mp hload
      refine ⟨⟨_, rfl⟩, fun _ other hother => ?_, nofun⟩
      obtain rfl := Option.some.inj hother
      exact hentries

theorem lookAround_ok {visit} {look : Look}
    (hallow : m.allow = visit.allow) (hcwd : m.cwd = visit.cwd)
    (h : lookAround visit.host m = .ok look m') :
    Looks visit look ∧ ∃ log, m' = { m with log } := by
  rw [lookAround] at h
  obtain ⟨cwd, m1, h1, h2⟩ := bind_eq_ok.mp h
  have hcurrent : cwd = visit.cwd ∧ m1 = m := by
    obtain ⟨m2, m3, hget, hcheck⟩ := bind_eq_ok.mp h1
    cases hget
    split at hcheck
    · cases hcheck
      exact ⟨hcwd, rfl⟩
    · cases hcheck
  rw [hcurrent.1, hcurrent.2] at h2
  obtain ⟨found, m2, hfound, h3⟩ := bind_eq_ok.mp h2
  obtain ⟨hlookup, rfl⟩ := call_unit hfound
  obtain ⟨envrc, m3, henvrc, h4⟩ := bind_eq_ok.mp h3
  obtain ⟨rfl, rfl⟩ := call_unit henvrc
  obtain ⟨envrc_file, m4, henvrc, h5⟩ := bind_eq_ok.mp h4
  obtain ⟨hreadrc, rfl⟩ := ofExcept_eq_ok.mp henvrc
  obtain ⟨dotenv, m5, hdotenv, h6⟩ := bind_eq_ok.mp h5
  obtain ⟨rfl, rfl⟩ := call_unit hdotenv
  obtain ⟨dotenv_file, m6, hdotenv, h7⟩ := bind_eq_ok.mp h6
  obtain ⟨hreadenv, rfl⟩ := ofExcept_eq_ok.mp hdotenv
  obtain ⟨_, m7, hnote, h8⟩ := bind_eq_ok.mp h7
  cases hnote
  obtain ⟨m8, m9, hget, h9⟩ := bind_eq_ok.mp h8
  obtain ⟨rfl, rfl⟩ := get_unit hget
  obtain ⟨blocked, m10, hblocked, h10⟩ := bind_eq_ok.mp h9
  obtain ⟨hcheck, rfl⟩ := call_unit hblocked
  obtain ⟨entries, m11, hentries, h11⟩ := bind_eq_ok.mp h10
  obtain ⟨⟨log, rfl⟩, hloaded, hnone⟩ := dotenvEntries_ok hentries
  cases h11
  refine ⟨⟨hlookup.symm, hreadrc, hreadenv, ?_, hloaded, hnone⟩, log, rfl⟩
  rw [← hallow]
  exact hcheck.symm

/-- Where a project is, as far as its path resolves. -/
def place (host : Host Unit) (found : EnvFiles) : Path :=
  (canonicalizeFallback host found.dir ()).1

/-- The project of a look, with the diff that its evaluation asks for, unless there is
none, it is blocked, or the evaluation fails. -/
def usable (host : Host Unit) (look : Look) (env_pairs : Snapshot) : Option (EnvFiles × EnvDiff) :=
  match look.found, look.blocked with
  | some found, none =>
    match (evalProject host found look.envrc_file look.dotenv_entries env_pairs ()).1 with
    | .ok diff => some (found, diff)
    | .error _ => none
  | _, _ => none

/-- The record of a project that was entered. -/
def activeState (host : Host Unit) (found : EnvFiles) (diff : EnvDiff) (working : Variables) :
    ActiveState where
  dir := place host found
  envrc_mtime := found.envrcMtime
  dotenv_mtime := found.dotenvMtime
  prev := capturePrev diff working

/-- The transitions that leave no project: `own` changes only denv's variables. -/
def LeavesOwn (own : List EnvChange) : Prop :=
  own = clearRuntimeState ∨ ∃ dir, own = dirtyState dir

/-- What `move` decides, once the old project is restored. -/
def Moves (host : Host Unit) (look : Look) (restored : List EnvChange) (working : Variables)
    (transition : Transition) : Prop :=
  match usable host look (working.envForCommandOs []) with
  | some (found, diff) =>
    transition.changes = restored ++ applyDiff diff ++ loadedState (place host found) found ∧
      transition.record = .Save (activeState host found diff working)
  | none => ∃ own, LeavesOwn own ∧ transition.changes = restored ++ own ∧
      transition.record = .Clear

theorem leaveDirty_ok {host : Host Unit} {found : EnvFiles} {changes} (h : leaveDirty host found changes m = .ok transition m') :
    m' = m ∧ transition.changes = changes ++ dirtyState (place host found) ∧
      transition.record = .Clear := by
  rw [leaveDirty] at h
  obtain ⟨dir, m1, hdir, hpure⟩ := bind_eq_ok.mp h
  obtain ⟨hplace, rfl⟩ := call_unit hdir
  cases hpure
  exact ⟨rfl, by rw [hplace]; rfl, rfl⟩

theorem move_ok {host look} {active : Option ActiveState} {vars : Variables}
    {transition : Transition} (h : move host look active vars m = .ok transition m') :
    (∃ log, m' = { m with log }) ∧ ∃ working,
      applyChanges vars (restoration active) = .ok working ∧
        Moves host look (restoration active) working transition := by
  rw [move] at h
  obtain ⟨working, m1, hworking, h1⟩ := bind_eq_ok.mp h
  obtain ⟨hrestored, rfl⟩ := ofExcept_eq_ok.mp hworking
  suffices hmoves : (∃ log, m' = { m1 with log }) ∧
      Moves host look (restoration active) working transition from
    ⟨hmoves.1, working, hrestored, hmoves.2⟩
  rw [Moves, usable]
  cases hfound : look.found with
  | none =>
    rw [hfound] at h1
    cases h1
    exact ⟨⟨_, rfl⟩, _, .inl rfl, rfl, rfl⟩
  | some found =>
    cases hblocked : look.blocked with
    | some file =>
      rw [hfound, hblocked] at h1
      obtain ⟨rfl, hchanges, hrecord⟩ := leaveDirty_ok h1
      exact ⟨⟨_, rfl⟩, _, .inr ⟨_, rfl⟩, hchanges, hrecord⟩
    | none =>
      rw [hfound, hblocked] at h1
      dsimp only at h1
      rw [enter] at h1
      obtain ⟨_, m2, hnote, h2⟩ := bind_eq_ok.mp h1
      cases hnote
      obtain ⟨result, m3, heval, h3⟩ := bind_eq_ok.mp h2
      obtain ⟨hresult, rfl⟩ := call_unit heval
      dsimp only
      rw [← hresult]
      cases result with
      | error e =>
        obtain ⟨rfl, hchanges, hrecord⟩ := leaveDirty_ok h3
        exact ⟨⟨_, rfl⟩, _, .inr ⟨_, rfl⟩, hchanges, hrecord⟩
      | ok diff =>
        obtain ⟨dir, m4, hdir, h4⟩ := bind_eq_ok.mp h3
        obtain ⟨hplace, rfl⟩ := call_unit hdir
        cases h4
        exact ⟨⟨_, rfl⟩, by rw [hplace]; rfl, by rw [hplace]; rfl⟩

/-- A session that has not read its record has none. -/
def Fresh (m : Machine Unit) : Prop :=
  m.session.active_loaded = false → m.session.active = none ∧ m.record = none

def Machine.loaded (m : Machine Unit) : Machine Unit :=
  { m with session := { m.session with active_loaded := true } }

variable (host : Host Unit)

theorem loadActive_fresh (path : Path) (hrecord : m.record = none) :
    loadActive host path m = .ok (.ok none) m ∨
      ∃ message, loadActive host path m = .ok (.error (.Unreadable message)) m := by
  rw [loadActive, bind_ok (call_run _ m)]
  cases (host.readActiveFails ()).1 with
  | some error => exact .inr ⟨_, rfl⟩
  | none =>
    refine .inl ?_
    dsimp only
    rw [bind_ok get_run, hrecord]
    rfl

theorem loadOnce_run (force : Bool) (path : Path) (hfresh : Fresh m) :
    loadOnce host force path m = .ok () m.loaded ∨ ∃ e, loadOnce host force path m = .error e m := by
  rw [loadOnce, bind_ok get_run]
  cases hloaded : m.session.active_loaded with
  | true =>
    have hsame : m.loaded = m := by rw [Machine.loaded, ← hloaded]
    rw [hsame]
    exact .inl rfl
  | false =>
    obtain ⟨hactive, hrecord⟩ := hfresh hloaded
    rw [if_neg (by simp)]
    rcases loadActive_fresh host path hrecord with hload | ⟨message, hload⟩
    · rw [bind_ok hload]
      refine .inl ?_
      rw [Machine.loaded, ← hactive]
      rfl
    · rw [bind_ok hload]
      exact .inr ⟨_, rfl⟩

/-- The two endings of a refresh that returns. -/
inductive Ends (visit : Visit) (look : Look) (m m' : Machine Unit) : Prop where
  | keeps (hkeeps : (keeps visit.host visit.force look m.vars m.session.active ()).1 = true)
      (hvars : m'.vars = m.vars) (hactive : m'.session.active = m.session.active)
  | moves (transition : Transition) (working : Variables)
      (hworking : applyChanges m.vars (restoration m.session.active) = .ok working)
      (hmoves : Moves visit.host look (restoration m.session.active) working transition)
      (hvars : applyChanges m.vars transition.changes = .ok m'.vars)
      (hactive : m'.session.active = transition.record.active m.session.active)

theorem unlessFails_run (context : Text) (fault : Option Text) (m : Machine Unit) :
    unlessFails context fault m = .ok () m ∨ ∃ e, unlessFails context fault m = .error e m := by
  cases fault with
  | none => exact .inl rfl
  | some error => exact .inr ⟨_, rfl⟩

theorem updateRecord_run (update : RecordUpdate) (m : Machine Unit) :
    (∃ record, updateRecord host update m = .ok () { m with
      record, session := { m.session with active := update.active m.session.active } }) ∨
      ∃ e, updateRecord host update m = .error e m := by
  cases update with
  | Keep => exact .inl ⟨m.record, rfl⟩
  | Clear =>
    have hclear : clearActive host m = .ok () { m with record := none } ∨
        ∃ e, clearActive host m = .error e m := by
      rw [clearActive, bind_ok (call_run _ m)]
      rcases unlessFails_run "failed to remove active file: ".toList
        (host.clearActiveFails ()).1 m with hfault | ⟨e, hfault⟩
      · rw [bind_ok hfault]
        exact .inl rfl
      · rw [bind_error hfault]
        exact .inr ⟨e, rfl⟩
    rw [updateRecord]
    rcases hclear with hclear | ⟨e, hclear⟩
    · rw [bind_ok hclear]
      exact .inl ⟨none, rfl⟩
    · rw [bind_error hclear]
      exact .inr ⟨e, rfl⟩
  | Save state =>
    have hsave : (∃ record, saveActiveFile host state m = .ok () { m with record }) ∨
        ∃ e, saveActiveFile host state m = .error e m := by
      rw [saveActiveFile]
      cases saveActive state with
      | error e => exact .inr ⟨_, rfl⟩
      | ok text =>
        dsimp only
        rw [bind_ok (call_run _ m)]
        rcases unlessFails_run [] (host.saveActiveFails ()).1 m with hfault | ⟨e, hfault⟩
        · rw [bind_ok hfault]
          exact .inl ⟨_, rfl⟩
        · rw [bind_error hfault]
          exact .inr ⟨e, rfl⟩
    rw [updateRecord]
    rcases hsave with ⟨record, hsave⟩ | ⟨e, hsave⟩
    · rw [bind_ok hsave]
      exact .inl ⟨record, rfl⟩
    · rw [bind_error hsave]
      exact .inr ⟨e, rfl⟩

/-! ## A refresh as a whole -/

/-- What `refreshInner` may change: the log. -/
def OnlyLog (m m' : Machine Unit) : Prop := ∃ log, m' = { m with log }

instance : IsPreorder (Machine Unit) OnlyLog where
  refl m := ⟨m.log, rfl⟩
  trans _ _ _ := by
    rintro ⟨log, rfl⟩ ⟨log', rfl⟩
    exact ⟨log', rfl⟩

theorem call_onlyLog {α : Type} (x : StateM Unit α) : Keeps OnlyLog (call x) :=
  fun m => ⟨m.log, rfl⟩

theorem ofExcept_onlyLog {α : Type} (x : Except Text α) : Keeps OnlyLog (ofExcept x) := by
  intro m
  cases x with
  | ok a => exact ⟨m.log, rfl⟩
  | error e => exact ⟨m.log, rfl⟩

theorem note_onlyLog (event : Event) : Keeps OnlyLog (note event) := .modify fun _ => ⟨_, rfl⟩

theorem lookAround_onlyLog : Keeps OnlyLog (lookAround host) := by
  have hcwd : Keeps OnlyLog currentDirFromStore := by
    refine .bind .get fun m => ?_
    dsimp only
    split
    · exact .pure _
    · exact .throw _
  have hentries : ∀ files blocked dotenv_file,
      Keeps OnlyLog (dotenvEntries host files blocked dotenv_file) := by
    intro files blocked dotenv_file
    cases blocked with
    | some file => exact .pure _
    | none =>
      cases dotenv_file with
      | none => exact .pure _
      | some file => exact .bind (note_onlyLog _) fun _ => ofExcept_onlyLog _
  refine .bind hcwd fun cwd => .bind (call_onlyLog _) fun found => ?_
  refine .bind (call_onlyLog _) fun _ => .bind (ofExcept_onlyLog _) fun envrc_file => ?_
  refine .bind (call_onlyLog _) fun _ => .bind (ofExcept_onlyLog _) fun dotenv_file => ?_
  refine .bind (note_onlyLog _) fun _ => .bind .get fun m => .bind (call_onlyLog _) fun blocked => ?_
  exact .bind (hentries _ _ _) fun entries => .pure _

theorem move_onlyLog (look : Look) (active : Option ActiveState)
    (vars : Variables) : Keeps OnlyLog (move host look active vars) := by
  have hdirty : ∀ found changes, Keeps OnlyLog (leaveDirty host found changes) :=
    fun found changes => .bind (call_onlyLog _) fun _ => .pure _
  refine .bind (ofExcept_onlyLog _) fun working => ?_
  cases look.found with
  | none => exact .pure _
  | some found =>
    cases look.blocked with
    | some file => exact hdirty found _
    | none =>
      refine .bind (note_onlyLog _) fun _ => .bind (call_onlyLog _) fun result => ?_
      cases result with
      | error e => exact hdirty found _
      | ok diff => exact .bind (call_onlyLog _) fun _ => .pure _

theorem refreshInner_onlyLog (force : Bool) : Keeps OnlyLog (refreshInner host force) := by
  refine .bind (lookAround_onlyLog host) fun look => .bind .get fun m => ?_
  refine .bind (call_onlyLog _) fun keep => ?_
  split
  · exact .pure _
  · exact move_onlyLog host look _ _

theorem refreshInner_ok {visit : Visit} {transition}
    (hallow : m.allow = visit.allow) (hcwd : m.cwd = visit.cwd)
    (h : refreshInner visit.host visit.force m = .ok transition m') :
    OnlyLog m m' ∧ ∃ look, Looks visit look ∧
      ((keeps visit.host visit.force look m.vars m.session.active ()).1 = true ∧
          transition = { changes := [], record := .Keep } ∨
        ∃ working, applyChanges m.vars (restoration m.session.active) = .ok working ∧
          Moves visit.host look (restoration m.session.active) working transition) := by
  rw [refreshInner] at h
  obtain ⟨look, m1, hlook, h1⟩ := bind_eq_ok.mp h
  obtain ⟨hlooks, log, rfl⟩ := lookAround_ok hallow hcwd hlook
  obtain ⟨m2, m3, hget, h2⟩ := bind_eq_ok.mp h1
  obtain ⟨rfl, rfl⟩ := get_unit hget
  obtain ⟨keep, m4, hkeep, h3⟩ := bind_eq_ok.mp h2
  obtain ⟨hkeeps, rfl⟩ := call_unit hkeep
  cases keep with
  | true =>
    cases h3
    exact ⟨⟨log, rfl⟩, look, hlooks, .inl ⟨hkeeps.symm, rfl⟩⟩
  | false =>
    obtain ⟨⟨log', rfl⟩, hmoves⟩ := move_ok h3
    exact ⟨⟨log', rfl⟩, look, hlooks, .inr hmoves⟩

theorem refresh_run (visit : Visit) (hfresh : Fresh m) :
    (∃ e, visit.refresh m = .error e (visit.arrive m)) ∨
      visit.refresh m = transit visit.host visit.force (visit.arrive m).loaded := by
  rw [Visit.refresh, refresh, bind_ok get_run]
  cases hdata : (visit.arrive m).session.data_dir with
  | error e => exact .inl ⟨e, rfl⟩
  | ok data_dir =>
    have hok : ∀ {α : Type} (a : α) (m : Machine Unit), ofExcept (.ok a) m = .ok a m :=
      fun _ _ => rfl
    rw [bind_ok (hok _ _), bind_ok get_run]
    cases hid : (visit.arrive m).session.record_id with
    | error e => exact .inl ⟨e, rfl⟩
    | ok record_id =>
      rw [bind_ok (hok _ _)]
      have hload := loadOnce_run visit.host visit.force (activePath data_dir record_id)
        (show Fresh (visit.arrive m) from hfresh)
      rcases hload with hload | ⟨e, hload⟩
      · rw [bind_ok hload]
        exact .inr rfl
      · rw [bind_error hload]
        exact .inl ⟨e, rfl⟩

theorem refresh_ok {visit} {changes : List EnvChange}
    (hfresh : Fresh m) (h : visit.refresh m = .ok changes m') :
    m'.session.active_loaded = true ∧ ∃ look, Looks visit look ∧ Ends visit look m m' := by
  rcases refresh_run visit hfresh with ⟨e, herror⟩ | hrun
  · rw [herror] at h
    cases h
  rw [hrun, transit] at h
  obtain ⟨transition, m1, hinner, h1⟩ := bind_eq_ok.mp h
  obtain ⟨⟨log, rfl⟩, look, hlooks, hends⟩ := refreshInner_ok rfl rfl hinner
  obtain ⟨m2, m3, hget, h2⟩ := bind_eq_ok.mp h1
  obtain ⟨rfl, rfl⟩ := get_unit hget
  obtain ⟨candidate, m4, hcandidate, h3⟩ := bind_eq_ok.mp h2
  obtain ⟨happlied, rfl⟩ := ofExcept_eq_ok.mp hcandidate
  obtain ⟨_, m5, hupdate, h4⟩ := bind_eq_ok.mp h3
  rcases updateRecord_run visit.host transition.record
    { (visit.arrive m).loaded with log } with ⟨record, hrun'⟩ | ⟨e, hrun'⟩
  · rw [hrun'] at hupdate
    cases hupdate
    cases h4
    refine ⟨rfl, look, hlooks, ?_⟩
    rcases hends with ⟨hkeeps, rfl⟩ | ⟨working, hworking, hmoves⟩
    · cases happlied
      exact .keeps hkeeps rfl rfl
    · exact .moves transition working hworking hmoves happlied rfl
  · rw [hrun'] at hupdate
    cases hupdate

theorem transit_error {host force e}
    (h : transit host force m = .error e m') : OnlyLog m m' := by
  rw [transit] at h
  have hinner := refreshInner_onlyLog host force m
  cases hr : refreshInner host force m with
  | error e' m1 =>
    rw [bind_error hr] at h
    cases h
    rw [hr] at hinner
    exact hinner
  | ok transition m1 =>
    rw [hr] at hinner
    obtain ⟨log, hm1⟩ := hinner
    rw [bind_ok hr, bind_ok get_run] at h
    cases happlied : applyChanges m1.vars transition.changes with
    | error e' =>
      have hfails : ofExcept (applyChanges m1.vars transition.changes) m1 = .error e' m1 := by
        rw [happlied]
        rfl
      rw [bind_error hfails] at h
      cases h
      exact ⟨log, hm1⟩
    | ok candidate =>
      have hworks : ofExcept (applyChanges m1.vars transition.changes) m1 =
          .ok candidate m1 := by
        rw [happlied]
        rfl
      rw [bind_ok hworks] at h
      rcases updateRecord_run host transition.record m1 with ⟨record, hupdate⟩ | ⟨e', hupdate⟩
      · rw [bind_ok hupdate] at h
        cases h
      · rw [bind_error hupdate] at h
        cases h
        exact ⟨log, hm1⟩

theorem refresh_error {visit : Visit} {e}
    (hfresh : Fresh m) (h : visit.refresh m = .error e m') :
    m'.vars = m.vars ∧ m'.session.active = m.session.active ∧ m'.record = m.record ∧
      Fresh m' := by
  rcases refresh_run visit hfresh with ⟨e', herror⟩ | hrun
  · rw [herror] at h
    cases h
    exact ⟨rfl, rfl, rfl, hfresh⟩
  · rw [hrun] at h
    obtain ⟨log, rfl⟩ := transit_error h
    exact ⟨rfl, rfl, rfl, nofun⟩

end Ish.Denv
