import Ish.Denv.Visits

/-!
# The store at a place

After every refresh that returns, the store is the one at the start, apart from denv's
own variables, or the start with the environment of the current project in place of the
exported one. The early exits of a refresh compare paths and times; `Told` says that
these tell the projects apart.
-/

namespace Ish.Denv

open Ish.Epsh Ish.Lib EState Option Keyed
open List hiding after

/-! ## Changes, name by name -/

/-- The changes that fail on a read-only variable. -/
def EnvChange.Writes : EnvChange → Prop
  | Set _ _ | Unset _ => True
  | Unexport _ | Declare _ _ => False

theorem free_of_effect {c : EnvChange} (hc : c.Writes)
    (h : c.effect b = .ok w) : Free b := by
  intro var hvar
  subst hvar
  cases hro : var.flags.READONLY with
  | false => rfl
  | true =>
    cases c with
    | Set name value | Unset name => simp [EnvChange.effect, hro] at h
    | Unexport name => exact hc.elim
    | Declare name exported => exact hc.elim

theorem free_of_localRun {cs : List EnvChange} (hcs : ∀ c ∈ cs, c.Writes) (hne : cs ≠ [])
    {b w} (h : localRun EnvChange.effect cs b = .ok w) : Free b := by
  cases cs with
  | nil => exact absurd rfl hne
  | cons c cs =>
    rw [localRun] at h
    cases hc : c.effect b with
    | error e => simp [hc, Except.bind] at h
    | ok v => exact free_of_effect (hcs c mem_cons_self) hc

theorem free_localRun (hb : Free b)
    (h : localRun EnvChange.effect cs b = .ok w) : Free w := by
  obtain ⟨v, hv, hfree⟩ := localRun_inv (P := Free) (fun c b hb => effect_free c hb) cs hb
  rw [h] at hv
  obtain rfl := Except.ok.inj hv
  exact hfree

variable {diff : EnvDiff}

theorem writes_applyDiff (h : c ∈ applyDiff diff) : c.Writes := by
  rw [applyDiff, mem_append] at h
  rcases h with h | h
  · obtain ⟨entry, -, rfl⟩ := mem_map.mp h
    trivial
  · obtain ⟨name, -, rfl⟩ := mem_map.mp h
    trivial

theorem commandsOf_applyDiff_ne_nil (h : name ∈ diff.names) :
    commandsOf EnvChange.name name (applyDiff diff) ≠ [] := by
  have hmem : ∃ c ∈ applyDiff diff, c.name = name := by
    rw [EnvDiff.names, mem_append] at h
    rcases h with h | h
    · obtain ⟨entry, hentry, rfl⟩ := mem_map.mp h
      exact ⟨_, mem_append_left _ (mem_map.mpr ⟨entry, hentry, rfl⟩), rfl⟩
    · exact ⟨.Unset name, mem_append_right _ (mem_map.mpr ⟨name, h, rfl⟩), rfl⟩
  obtain ⟨c, hc, hname⟩ := hmem
  exact ne_nil_of_mem (mem_filter.mpr ⟨hc, by simpa using hname⟩)

theorem applied_after
    (hcs : applyChanges v cs = .ok w) (h : applyChanges v (cs ++ ds) = .ok u) :
    u.rest = w.rest ∧ ∀ name, localRun EnvChange.effect
      (commandsOf EnvChange.name name ds) (w.binding name) = .ok (u.binding name) := by
  obtain ⟨hrest, hlocal⟩ := applyChanges_local hcs
  obtain ⟨hrest', hlocal'⟩ := applyChanges_local h
  refine ⟨hrest'.trans hrest.symm, fun name => ?_⟩
  have hname := hlocal' name
  rw [commandsOf_append, localRun_append, hlocal name] at hname
  exact hname

/-! ## denv's own variables -/

theorem names_loadedState (dir : Path) (found : EnvFiles) :
    ∀ c ∈ loadedState dir found, c.name ∈ OWN_NAMES := by
  intro c hc
  simp only [loadedState, mem_cons, not_mem_nil, or_false] at hc
  rcases hc with rfl | rfl | rfl <;> simp [EnvChange.name, OWN_NAMES]

variable {own : List EnvChange}

theorem names_own (h : LeavesOwn own) : ∀ c ∈ own, c.name ∈ OWN_NAMES := by
  intro c hc
  rcases h with rfl | ⟨dir, rfl⟩
  · simp only [clearRuntimeState, mem_cons, not_mem_nil, or_false] at hc
    rcases hc with rfl | rfl | rfl <;> simp [EnvChange.name, OWN_NAMES]
  · simp only [dirtyState, mem_cons, not_mem_nil, or_false] at hc
    rcases hc with rfl | rfl | rfl <;> simp [EnvChange.name, OWN_NAMES]

theorem commandsOf_own (hown : ∀ c ∈ own, c.name ∈ OWN_NAMES)
    (hname : name ∉ OWN_NAMES) : commandsOf EnvChange.name name own = [] :=
  commandsOf_eq_nil fun c hc heq => hname (heq ▸ hown c hc)

theorem free_of_applied {working final : Variables}
    (hlocal : ∀ name, localRun EnvChange.effect
      (commandsOf EnvChange.name name (applyDiff diff ++ own)) (working.binding name) =
        .ok (final.binding name)) (hname : name ∈ diff.names) :
    Free (working.binding name) := by
  have hrun := hlocal name
  rw [commandsOf_append, localRun_append] at hrun
  cases hdiff : localRun EnvChange.effect
      (commandsOf EnvChange.name name (applyDiff diff)) (working.binding name) with
  | error e => simp [hdiff, Except.bind] at hrun
  | ok w =>
    exact free_of_localRun (fun c hc => writes_applyDiff (mem_of_mem_filter hc))
      (commandsOf_applyDiff_ne_nil hname) hdiff

theorem binding_of_applied {working final : Variables} (hown : ∀ c ∈ own, c.name ∈ OWN_NAMES)
    (hlocal : ∀ name, localRun EnvChange.effect
      (commandsOf EnvChange.name name (applyDiff diff ++ own)) (working.binding name) =
        .ok (final.binding name)) (hname : name ∉ OWN_NAMES) :
    final.binding name = written (diff.outcome name) (working.binding name) := by
  have hrun := hlocal name
  rw [commandsOf_append, commandsOf_own hown hname, append_nil,
    localRun_applyDiff diff name fun hmem => free_of_applied hlocal hmem] at hrun
  exact (Except.ok.inj hrun).symm

theorem DENV_DIR_ne_STATE : DENV_DIR ≠ DENV_STATE := by decide

theorem DENV_DIRTY_ne_STATE : DENV_DIRTY ≠ DENV_STATE := by decide

theorem commandsOf_state_loaded (dir : Path) (found : EnvFiles) :
    commandsOf EnvChange.name DENV_STATE (loadedState dir found) =
      [.Set DENV_STATE (stateValue found)] := by
  simp [commandsOf, loadedState, EnvChange.name, DENV_DIR_ne_STATE, DENV_DIRTY_ne_STATE]

theorem commandsOf_state_own (h : LeavesOwn own) :
    commandsOf EnvChange.name DENV_STATE own = [.Unset DENV_STATE] := by
  rcases h with rfl | ⟨dir, rfl⟩
  · simp [commandsOf, clearRuntimeState, EnvChange.name, DENV_DIR_ne_STATE,
      DENV_DIRTY_ne_STATE]
  · simp [commandsOf, dirtyState, EnvChange.name, DENV_DIR_ne_STATE, DENV_DIRTY_ne_STATE]

/-- The store `w` is `v`, apart from denv's own variables. -/
def Beside (v w : Variables) : Prop :=
  (∀ name ∉ OWN_NAMES, w.binding name = v.binding name) ∧ w.rest = v.rest

/-! ## The invariant -/

/-- Where the shell is after some visits: in no project, or in that of an earlier visit,
whose diff the active record takes back. -/
inductive At (v : Variables) (past : List Visit) (m : Machine Unit) : Prop
  | out (hactive : m.session.active = none) (hbeside : Beside v m.vars)
      (hstate : m.vars.binding DENV_STATE = none)
  | inside (visit : Visit) (hvisit : visit ∈ past) (look : Look) (found : EnvFiles) (diff : EnvDiff)
      (working : Variables) (hlooks : Looks visit look)
      (husable : usable visit.host look (working.envForCommandOs []) = some (found, diff))
      (hbeside : Beside v working)
      (hactive : m.session.active = some (activeState visit.host found diff working))
      (hfree : ∀ name ∈ diff.names, Free (working.binding name) ∧ Free (m.vars.binding name))
      (hvars : ∀ name ∉ OWN_NAMES,
        m.vars.binding name = written (diff.outcome name) (working.binding name))
      (hrest : m.vars.rest = v.rest)
      (hstate : m.vars.getBytes DENV_STATE = some (stateValue found))

variable {v : Variables} {past : List Visit}

/-- **Restoring takes the old project back.** -/
theorem At.restored (h : At v past m) (hworking : applyChanges m.vars (restoration m.session.active) = .ok working) :
    Beside v working := by
  cases h with
  | out hactive hbeside hstate =>
    rw [hactive] at hworking
    obtain rfl := Except.ok.inj hworking
    exact hbeside
  | inside visit hvisit look found diff before hlooks husable hbeside hactive hfree hvars hrest hstate =>
    obtain ⟨hrest', hlocal⟩ := applyChanges_local hworking
    refine ⟨fun name hname => ?_, hrest'.trans hrest⟩
    have hrun := hlocal name
    rw [hactive, restoration, activeState, capturePrev,
      localRun_applyRestore before.binding name diff.names (fun hmem => (hfree name hmem).1)
        fun hmem => (hfree name hmem).2] at hrun
    rw [← Except.ok.inj hrun, ← hbeside.1 name hname]
    by_cases hmem : name ∈ diff.names
    · rw [if_pos hmem]
    · rw [if_neg hmem, hvars name hname, EnvDiff.outcome_eq_none.mpr hmem, written]

/-- A transition into no project. -/
theorem At.leave
    {own restored} (hown : LeavesOwn own)
    (hworking : applyChanges vars restored = .ok working) (hbeside : Beside v working)
    (happlied : applyChanges vars (restored ++ own) = .ok m'.vars)
    (hactive : m'.session.active = none) : Beside v m'.vars ∧ At v past m' := by
  obtain ⟨hrest, hlocal⟩ := applied_after hworking happlied
  have hbeside' : Beside v m'.vars := by
    refine ⟨fun name hname => ?_, hrest.trans hbeside.2⟩
    have hrun := hlocal name
    rw [commandsOf_own (names_own hown) hname, localRun] at hrun
    rw [← Except.ok.inj hrun, hbeside.1 name hname]
  refine ⟨hbeside', .out hactive hbeside' ?_⟩
  have hstate := hlocal DENV_STATE
  rw [commandsOf_state_own hown, localRun] at hstate
  have hfree : Free (working.binding DENV_STATE) :=
    @free_of_localRun [.Unset DENV_STATE] (by simp [EnvChange.Writes]) (by simp) _ _ hstate
  rw [EnvChange.effect, not_readonly_of_free hfree] at hstate
  exact (Except.ok.inj hstate).symm

variable {visit : Visit} {found : EnvFiles}

/-- A transition into the project of the visit. -/
theorem At.enter (hvisit : visit ∈ past)
    {m' : Machine Unit} {vars working : Variables}
    {restored} (hlooks : Looks visit look)
    (husable : usable visit.host look (working.envForCommandOs []) = some (found, diff))
    (hworking : applyChanges vars restored = .ok working) (hbeside : Beside v working)
    (happlied : applyChanges vars (restored ++ (applyDiff diff ++
      loadedState (place visit.host found) found)) = .ok m'.vars)
    (hactive : m'.session.active = some (activeState visit.host found diff working)) :
    (∀ name ∉ OWN_NAMES, m'.vars.binding name = written (diff.outcome name) (v.binding name)) ∧
      m'.vars.rest = v.rest ∧ At v past m' := by
  obtain ⟨hrest, hlocal⟩ := applied_after hworking happlied
  have hfree : ∀ name ∈ diff.names, Free (working.binding name) := fun name hname =>
    free_of_applied hlocal hname
  have hvars : ∀ name ∉ OWN_NAMES,
      m'.vars.binding name = written (diff.outcome name) (working.binding name) :=
    fun name hname => binding_of_applied (names_loadedState _ _) hlocal hname
  refine ⟨fun name hname => ?_, hrest.trans hbeside.2, .inside visit hvisit look found diff working
    hlooks husable hbeside hactive (fun name hname => ⟨hfree name hname, ?_⟩) hvars
    (hrest.trans hbeside.2) ?_⟩
  · rw [hvars name hname, hbeside.1 name hname]
  · exact free_localRun (hfree name hname) (hlocal name)
  · have hrun := hlocal DENV_STATE
    rw [commandsOf_append, localRun_append, commandsOf_state_loaded] at hrun
    cases hdiff : localRun EnvChange.effect
        (commandsOf EnvChange.name DENV_STATE (applyDiff diff)) (working.binding DENV_STATE) with
    | error e => simp [hdiff, Except.bind] at hrun
    | ok w =>
      rw [hdiff] at hrun
      have hlast : localRun EnvChange.effect [.Set DENV_STATE (stateValue found)] w =
          .ok (m'.vars.binding DENV_STATE) := hrun
      have hw : Free w := free_of_localRun (by simp [EnvChange.Writes]) (by simp) hlast
      rw [localRun, EnvChange.effect, not_readonly_of_free hw] at hlast
      rw [Variables.getBytes, ← Except.ok.inj hlast]
      rfl

/-! ## The early exits -/

/-- A text that starts like the state variable reads back as its parts. -/
theorem parse_stateValue
    (h : (asUtf8Str (stateValue found)).bind parseDenvState = some (envrc, dotenv, dir)) :
    envrc = found.envrcMtime ∧ dotenv = found.dotenvMtime ∧ asUtf8Str found.dir = some dir := by
  obtain ⟨text, htext, hparse⟩ := bind_eq_some_iff.mp h
  have hbytes := eq_ofText htext
  have hprefix : Numeral.u64ToString found.envrcMtime ++ ' ' ::
      Numeral.u64ToString found.dotenvMtime ++ [' '] <+: (Utf8.split (Utf8.encode text)).1 :=
    Utf8.prefix_split _ ⟨found.dir, hbytes⟩
  rw [Utf8.split_encode] at hprefix
  obtain ⟨rest, rfl⟩ := hprefix
  have hdir : found.dir = Utf8.encode rest := by
    rw [stateValue, ShellBytes.ofText, ShellBytes.ofText, Utf8.encode_append _ rest] at hbytes
    exact append_cancel_left hbytes
  have hspace : ∀ n, ' ' ∉ Numeral.u64ToString n := fun n => notMem_u64ToString (by decide) n
  have hsplit := Text.splitOnce_append (hspace found.envrcMtime)
    (Numeral.u64ToString found.dotenvMtime ++ ' ' :: rest)
  have hsplit' := Text.splitOnce_append (hspace found.dotenvMtime) rest
  have hform : Numeral.u64ToString found.envrcMtime ++ ' ' ::
      Numeral.u64ToString found.dotenvMtime ++ [' '] ++ rest =
        Numeral.u64ToString found.envrcMtime ++ ' ' ::
          (Numeral.u64ToString found.dotenvMtime ++ ' ' :: rest) := by
    simp
  rw [hform, parseDenvState, hsplit] at hparse
  simp only [bind_eq_bind, bind_some, hsplit', Numeral.parseU64_u64ToString,
    Option.pure_def, some.injEq, Prod.mk.injEq] at hparse
  obtain ⟨rfl, rfl, rfl⟩ := hparse
  refine ⟨rfl, rfl, ?_⟩
  rw [hdir]
  exact asUtf8Str_ofText rest

/-- What a refresh takes for the project of an earlier visit: the times are the same, and
so is the path, as it was found, as it resolves, or as both resolve now. -/
def Recognises (earlier later : Visit) (found found' : EnvFiles) : Prop :=
  found'.envrcMtime = found.envrcMtime ∧ found'.dotenvMtime = found.dotenvMtime ∧
    (found'.dir = found.dir ∨ (later.host.canonicalize found'.dir ()).1 = .ok found.dir ∨
      (pathsMatch later.host (place earlier.host found) found'.dir ()).1 = true)

theorem dir_of_isDirectory {dir dir' : Path} (h : asUtf8Str dir = some st_dir)
    (h' : isDirectory st_dir dir' = true) : dir' = dir := by
  have htext : asUtf8Str dir' = some st_dir := by simpa [isDirectory] using h'
  rw [eq_ofText h, eq_ofText htext]

variable {host : Host Unit}

theorem stateVarMatches_run (h : (stateVarMatches host found vars ()).1 = true) :
    ∃ st_dir, (vars.get DENV_STATE).bind parseDenvState =
        some (found.envrcMtime, found.dotenvMtime, st_dir) ∧
      (isDirectory st_dir found.dir = true ∨
        ∃ dir, (host.canonicalize found.dir ()).1 = .ok dir ∧ isDirectory st_dir dir = true) := by
  rw [stateVarMatches] at h
  cases hstate : (vars.get DENV_STATE).bind parseDenvState with
  | none =>
    rw [hstate] at h
    cases h
  | some state =>
    obtain ⟨st_envrc, st_dotenv, st_dir⟩ := state
    rw [hstate] at h
    dsimp only at h
    split at h
    · next htimes =>
        obtain ⟨rfl, rfl⟩ := htimes
        refine ⟨st_dir, rfl, ?_⟩
        split at h
        · next hdir => exact .inl hdir
        · rw [bind_run] at h
          cases hdir : (host.canonicalize found.dir ()).1 with
          | error e =>
            rw [hdir] at h
            cases h
          | ok dir =>
            rw [hdir] at h
            exact .inr ⟨dir, rfl, h⟩
    · cases h

theorem activeMatches_run
    (h : (activeMatches host found active ()).1 = true) :
    ∃ state, active = some state ∧ state.envrc_mtime = found.envrcMtime ∧
      state.dotenv_mtime = found.dotenvMtime ∧ (pathsMatch host state.dir found.dir ()).1 = true := by
  cases active with
  | none => cases h
  | some state =>
    rw [activeMatches] at h
    split at h
    · next htimes => exact ⟨state, rfl, htimes.1, htimes.2, h⟩
    · cases h

theorem keeps_run (h : (keeps host force look vars active ()).1 = true) :
    ∃ found, look.found = some found ∧ look.blocked = none ∧
      ((stateVarMatches host found vars ()).1 = true ∨
        (activeMatches host found active ()).1 = true) := by
  rw [keeps] at h
  cases hfound : look.found with
  | none =>
    rw [hfound] at h
    cases h
  | some found =>
    rw [hfound] at h
    dsimp only at h
    split at h
    · next hblocked =>
        rw [Bool.and_eq_true, isNone_iff_eq_none] at hblocked
        refine ⟨found, rfl, hblocked.2, ?_⟩
        rw [unchanged] at h
        cases hstate : (stateVarMatches host found vars ()).1 with
        | true => exact .inl rfl
        | false =>
          refine .inr ?_
          change ((if (stateVarMatches host found vars ()).1 = true then
            (return true : StateM Unit Bool) else activeMatches host found active) ()).1 = true at h
          rw [hstate] at h
          exact h
    · cases h

/-- **The early exits recognise the project** whose diff the store carries. -/
theorem At.recognised (h : At v past m)
    (hkeeps : (keeps visit.host visit.force look m.vars m.session.active ()).1 = true) :
    ∃ earlier ∈ past, ∃ look' found' found diff working, Looks earlier look' ∧
      look.found = some found ∧ look.blocked = none ∧ Beside v working ∧
      usable earlier.host look' (working.envForCommandOs []) = some (found', diff) ∧
      Recognises earlier visit found' found ∧ m.vars.rest = v.rest ∧
      ∀ name ∉ OWN_NAMES, m.vars.binding name = written (diff.outcome name) (v.binding name) := by
  obtain ⟨found, hfound, hblocked, hsame⟩ := keeps_run hkeeps
  cases h with
  | out hactive hbeside hstate =>
    rcases hsame with hsame | hsame
    · obtain ⟨st_dir, hparse, -⟩ := stateVarMatches_run hsame
      rw [Variables.get, Variables.getBytes, hstate] at hparse
      cases hparse
    · obtain ⟨state, hsome, -⟩ := activeMatches_run hsame
      rw [hactive] at hsome
      cases hsome
  | inside earlier hearlier look' found' diff working hlooks husable hbeside hactive hfree hvars hrest
      hstate =>
      refine ⟨earlier, hearlier, look', found', found, diff, working, hlooks, hfound, hblocked,
        hbeside, husable, ?_, hrest, fun name hname => by rw [hvars name hname, hbeside.1 name hname]⟩
      rcases hsame with hsame | hsame
      · obtain ⟨st_dir, hparse, hdir⟩ := stateVarMatches_run hsame
        rw [Variables.get, hstate] at hparse
        obtain ⟨henvrc, hdotenv, htext⟩ := parse_stateValue hparse
        refine ⟨henvrc, hdotenv, ?_⟩
        rcases hdir with hdir | ⟨dir, hcanonical, hdir⟩
        · exact .inl (dir_of_isDirectory htext hdir)
        · exact .inr (.inl (by rw [hcanonical, dir_of_isDirectory htext hdir]))
      · obtain ⟨state, hsome, henvrc, hdotenv, hpath⟩ := activeMatches_run hsame
        rw [hactive] at hsome
        obtain rfl := some.inj hsome
        exact ⟨henvrc.symm, hdotenv.symm, .inr (.inr hpath)⟩

/-! ## The same project -/

/-- The interpreters of two hosts agree. -/
def SameInterpreters (host host' : Host Unit) : Prop :=
  host'.bash = host.bash ∧ host'.epsh = host.epsh

/-- Two looks at one project: its place and the contents of its files. -/
structure SameProject (earlier later : Visit) (look look' : Look) (found found' : EnvFiles) :
    Prop where
  place : place later.host found' = place earlier.host found
  envrc : look'.envrc_file.map (·.bytes) = look.envrc_file.map (·.bytes)
  dotenv : look'.dotenv_file.map (·.bytes) = look.dotenv_file.map (·.bytes)

/-- Paths and times tell the projects of these visits apart. -/
def Told (visits : List Visit) : Prop :=
  visits.Pairwise fun earlier later => ∀ look look' found found', Looks earlier look →
    Looks later look' → look.found = some found → look'.found = some found' →
      Recognises earlier later found found' → SameProject earlier later look look' found found'

variable {source : ShellBytes}

theorem evalEnv_same (h : SameInterpreters host host')
    (hresult : (evalEnv host dir source entries env_pairs ()).1 = .ok result) :
    (evalEnv host' dir source entries env_pairs ()).1 = .ok result := by
  rw [evalEnv] at hresult ⊢
  rw [h.1, h.2]
  split
  · next hbash =>
      rw [if_pos hbash] at hresult
      exact hresult
  · next hbash =>
      rw [if_neg hbash] at hresult
      cases htext : asUtf8Str source with
      | none =>
        rw [htext] at hresult
        cases hresult
      | some text =>
        rw [htext] at hresult
        exact hresult

/-- The diff of a project with a `.envrc`. -/
theorem evalProject_envrc (host : Host Unit) (found : EnvFiles) (file : TrustCandidate)
    (entries : List (Text × Text)) (env_pairs : Snapshot) :
    (evalProject host found (some file) entries env_pairs ()).1 =
      (evalEnv host (place host found) file.bytes entries env_pairs ()).1.map
        fun result => diffSortedEnv result.1 result.2 := by
  rw [place, evalProject, bind_run, bind_run]
  cases (evalEnv host (canonicalizeFallback host found.dir ()).1 file.bytes entries
    env_pairs ()).1 with
  | ok result => rfl
  | error e => rfl

theorem loadDotenvEntries_same (h : loadDotenvEntries utf8Error bytes = .ok entries)
    (h' : loadDotenvEntries utf8Error' bytes = .ok entries') : entries' = entries := by
  rw [loadDotenvEntries] at h h'
  cases htext : asUtf8Str bytes with
  | none =>
    rw [htext] at h
    cases h
  | some text =>
    rw [htext] at h h'
    exact Except.ok.inj (h'.symm.trans h)

theorem SameProject.entries
    (h : SameProject earlier later look look' found found') (hlooks : Looks earlier look)
    (hlooks' : Looks later look') (hblocked : look.blocked = none) (hblocked' : look'.blocked = none) :
    look'.dotenv_entries = look.dotenv_entries := by
  have hdotenv := h.dotenv
  cases hfile : look.dotenv_file with
  | none =>
    rw [hfile, map_none, map_eq_none_iff] at hdotenv
    rw [hlooks.no_entries hfile, hlooks'.no_entries hdotenv]
  | some file =>
    rw [hfile, map_some] at hdotenv
    obtain ⟨file', hfile', hbytes⟩ := map_eq_some_iff.mp hdotenv
    have hload := hlooks.entries hblocked file hfile
    have hload' := hlooks'.entries hblocked' file' hfile'
    rw [hbytes] at hload'
    exact loadDotenvEntries_same hload hload'

theorem SameProject.usable
    (h : SameProject earlier later look look' found found') (hlooks : Looks earlier look)
    (hlooks' : Looks later look') (hfound' : look'.found = some found')
    (hblocked' : look'.blocked = none) (hhosts : SameInterpreters earlier.host later.host) (husable : usable earlier.host look env_pairs = some (found, diff)) :
    usable later.host look' env_pairs = some (found', diff) := by
  rw [Denv.usable] at husable ⊢
  cases hfound : look.found with
  | none =>
    rw [hfound] at husable
    cases husable
  | some other =>
    cases hblocked : look.blocked with
    | some file =>
      rw [hfound, hblocked] at husable
      cases husable
    | none =>
      rw [hfound, hblocked] at husable
      rw [hfound', hblocked']
      dsimp only at husable ⊢
      have hentries := h.entries hlooks hlooks' hblocked hblocked'
      have hsame : ∀ result, (evalProject earlier.host other look.envrc_file look.dotenv_entries
          env_pairs ()).1 = .ok result → other = found →
          (evalProject later.host found' look'.envrc_file look'.dotenv_entries env_pairs ()).1 =
            .ok result := by
        intro result hresult heq
        subst heq
        have henvrc := h.envrc
        rw [hentries]
        cases hfile : look.envrc_file with
        | none =>
          rw [hfile, map_none, map_eq_none_iff] at henvrc
          rw [hfile] at hresult
          rw [henvrc]
          exact hresult
        | some file =>
          rw [hfile, map_some] at henvrc
          obtain ⟨file', hfile', hbytes⟩ := map_eq_some_iff.mp henvrc
          rw [hfile, evalProject_envrc] at hresult
          rw [hfile', evalProject_envrc, hbytes, h.place]
          cases heval : (evalEnv earlier.host (Denv.place earlier.host other) file.bytes
              look.dotenv_entries env_pairs ()).1 with
          | error e =>
            rw [heval] at hresult
            cases hresult
          | ok snapshots =>
            rw [heval] at hresult
            rw [evalEnv_same hhosts heval]
            exact hresult
      cases hresult : (evalProject earlier.host other look.envrc_file look.dotenv_entries
          env_pairs ()).1 with
      | error e =>
        rw [hresult] at husable
        cases husable
      | ok result =>
        rw [hresult] at husable
        obtain ⟨rfl, rfl⟩ := Prod.mk.inj (some.inj husable)
        rw [hsame result hresult rfl]

/-! ## What the store should be -/

/-- The store `v` at a name, with the environment `after` in place of `before`. -/
def replaced (v : Variables) (before after : Env) (name : Text) : Option Var :=
  if after.lookup name = before.lookup name then v.binding name
  else (after.lookup name).map assigned

/-- The store `v` at a name, with the entries of a lone `.env` assigned in order, but for
those that the environment has already. -/
def overlaid (v : Variables) (entries : List (Text × Text)) (env_pairs : Snapshot) (name : Text) :
    Option Var :=
  written ((lastValue name (diffDotenvOnly entries env_pairs).set).map some) (v.binding name)

/-- What a visit should leave at a name other than denv's own: the result of evaluating its
project in this environment, or `v` when there is none to use. -/
def expected (v : Variables) (visit : Visit) (look : Look) (env_pairs : Snapshot) (name : Text) :
    Option Var :=
  match look.found, look.blocked with
  | some found, none =>
    match look.envrc_file with
    | some file =>
      match (evalEnv visit.host (place visit.host found) file.bytes look.dotenv_entries
          env_pairs ()).1 with
      | .ok (before, after) => replaced v before after name
      | .error _ => v.binding name
    | none => overlaid v look.dotenv_entries env_pairs name
  | _, _ => v.binding name

/-- The interpreters' answers name each variable once. -/
def EachNameOnce (host : Host Unit) : Prop :=
  (∀ dir source env before after, (host.bash dir source env ()).1 = .ok (before, after) →
    Snapshot.Distinct ((splitNull before).filterMap splitEntry) ∧
      Snapshot.Distinct ((splitNull after).filterMap splitEntry)) ∧
  ∀ dir source entries env after, (host.epsh dir source entries env ()).1 = .ok after →
    Snapshot.Distinct after

theorem evalEnv_bash (host : Host Unit) (dir : Path)
    (entries : List (Text × Text)) (env_pairs : Snapshot) (hbash : usesBash source = true)
    (hnul : 0 ∉ source) :
    (evalEnv host dir source entries env_pairs ()).1 =
      (host.bash dir source (fun key => env_pairs.lookup key) ()).1.map fun data =>
        (parseEnvNull data.1, assignEntries entries (parseEnvNull data.2)) := by
  rw [evalEnv, if_pos hbash, if_neg hnul, bind_run]
  cases (host.bash dir source (fun key => env_pairs.lookup key) ()).1 with
  | error e => rfl
  | ok data => rfl

theorem evalEnv_epsh (host : Host Unit) (dir : Path)
    (entries : List (Text × Text)) (env_pairs : Snapshot) (hbash : usesBash source = false) (htext : asUtf8Str source = some text) :
    (evalEnv host dir source entries env_pairs ()).1 =
      (host.epsh dir source entries (fun key => env_pairs.lookup key) ()).1.map fun after =>
        (filteredEnvFromSnapshot env_pairs, filteredEnvFromSnapshot after) := by
  rw [evalEnv, if_neg (by simp [hbash]), htext]
  dsimp only
  rw [bind_run]
  cases (host.epsh dir source entries (fun key => env_pairs.lookup key) ()).1 with
  | error e => rfl
  | ok after => rfl

theorem evalEnv_sorted (h : EachNameOnce host)
    {entries working}
    (himported : Imported working) {before after}
    (hresult : (evalEnv host dir source entries (working.envForCommandOs []) ()).1 =
      .ok (before, after)) : before.Sorted ∧ after.Sorted := by
  cases hbash : usesBash source with
  | true =>
    by_cases hnul : 0 ∈ source
    · rw [evalEnv, if_pos hbash, if_pos hnul] at hresult
      cases hresult
    · rw [evalEnv_bash host dir entries _ hbash hnul] at hresult
      cases hdata : (host.bash dir source
          (fun key => (working.envForCommandOs []).lookup key) ()).1 with
      | error e =>
        rw [hdata] at hresult
        cases hresult
      | ok data =>
        rw [hdata] at hresult
        obtain ⟨rfl, rfl⟩ := Prod.mk.inj (Except.ok.inj hresult)
        obtain ⟨hbefore, hafter⟩ := h.1 dir source _ data.1 data.2 hdata
        exact ⟨filteredEnv_sorted hbefore.filtered,
          assignEntries_sorted entries (filteredEnv_sorted hafter.filtered)⟩
  | false =>
    cases htext : asUtf8Str source with
    | none =>
      rw [evalEnv, if_neg (by simp [hbash]), htext] at hresult
      cases hresult
    | some text =>
      rw [evalEnv_epsh host dir entries _ hbash htext] at hresult
      cases hdata : (host.epsh dir source entries
          (fun key => (working.envForCommandOs []).lookup key) ()).1 with
      | error e =>
        rw [hdata] at hresult
        cases hresult
      | ok data =>
        rw [hdata] at hresult
        obtain ⟨rfl, rfl⟩ := Prod.mk.inj (Except.ok.inj hresult)
        exact ⟨filteredEnv_sorted (env_distinct himported),
          filteredEnv_sorted (h.2 dir source entries _ data hdata).filtered⟩

theorem expected_eq (h : EachNameOnce visit.host)
    (himported : Imported working) (look : Look) (name : Text) :
    expected v visit look (working.envForCommandOs []) name =
      match usable visit.host look (working.envForCommandOs []) with
      | some (_, diff) => written (diff.outcome name) (v.binding name)
      | none => v.binding name := by
  rw [expected, usable]
  cases hfound : look.found with
  | none => rfl
  | some found =>
    cases hblocked : look.blocked with
    | some file => rfl
    | none =>
      dsimp only
      cases hfile : look.envrc_file with
      | none => rfl
      | some file =>
        rw [evalProject_envrc]
        dsimp only
        cases hresult : (evalEnv visit.host (place visit.host found) file.bytes
            look.dotenv_entries (working.envForCommandOs []) ()).1 with
        | error e => rfl
        | ok snapshots =>
          obtain ⟨hbefore, hafter⟩ := evalEnv_sorted h himported hresult
          simp only [Except.map]
          rw [diffSortedEnv_outcome _ _ hbefore hafter, replaced]
          split <;> rfl

/-! ## The environment depends on the place -/

/-- After a refresh that returned: the look it had, and a store like `v` but for denv's
own variables, in which the project was evaluated. -/
def Placed (v : Variables) (visit : Visit) (m' : Machine Unit) : Prop :=
  ∃ look working, Looks visit look ∧ Beside v working ∧ m'.vars.rest = v.rest ∧
    ∀ name ∉ OWN_NAMES,
      m'.vars.binding name = expected v visit look (working.envForCommandOs []) name

/-- How a refresh ends: the store is placed, or store and active record are left alone. -/
structure Settles (v : Variables) (visit : Visit) (m : Machine Unit) : Prop where
  returns : ∀ changes m', visit.refresh m = .ok changes m' → Placed v visit m'
  fails : ∀ e m', visit.refresh m = .error e m' →
    m'.vars = m.vars ∧ m'.session.active = m.session.active ∧ m'.record = m.record

theorem At.mono (h : At v past m)
    (hsub : ∀ visit ∈ past, visit ∈ past') : At v past' m := by
  cases h with
  | out hactive hbeside hstate => exact .out hactive hbeside hstate
  | inside visit hvisit look found diff working hlooks husable hbeside hactive hfree hvars hrest
      hstate =>
      exact .inside visit (hsub visit hvisit) look found diff working hlooks husable hbeside hactive
        hfree hvars hrest hstate

theorem Beside.imported (h : Beside v w) (hv : Imported v) : Imported w := by
  have hrest : w.inherited_env = v.inherited_env := congrArg (·.1) h.2
  rw [Imported, hrest]
  exact hv

theorem At.congr (h : At v past m)
    (hvars : m'.vars = m.vars) (hactive : m'.session.active = m.session.active) : At v past m' := by
  cases h with
  | out hactive' hbeside hstate =>
    exact .out (hactive.trans hactive') (hvars ▸ hbeside) (hvars ▸ hstate)
  | inside visit hvisit look found diff working hlooks husable hbeside hactive' hfree hvars' hrest
      hstate =>
      exact .inside visit hvisit look found diff working hlooks husable hbeside
        (hactive.trans hactive') (hvars ▸ hfree) (hvars ▸ hvars') (hvars ▸ hrest) (hvars ▸ hstate)

theorem found_of_usable
    (h : usable host look env_pairs = some (found, diff)) : look.found = some found := by
  rw [usable] at h
  split at h
  · next found' hfound _ =>
      split at h
      · obtain ⟨rfl, -⟩ := Prod.mk.inj (some.inj h)
        exact hfound
      · cases h
  · cases h

theorem At.step {m m'}
    {changes} (h : At v past m) (hfresh : Fresh m) (himported : Imported v)
    (honce : EachNameOnce visit.host)
    (hhosts : ∀ earlier ∈ past, SameInterpreters earlier.host visit.host)
    (htold : Told (past ++ [visit])) (hrun : visit.refresh m = .ok changes m') :
    Placed v visit m' ∧ At v (past ++ [visit]) m' ∧ Fresh m' := by
  obtain ⟨hloaded, look, hlooks, hends⟩ := refresh_ok hfresh hrun
  have hfresh' : Fresh m' := fun hnot => by simp [hloaded] at hnot
  have hmono : ∀ earlier ∈ past, earlier ∈ past ++ [visit] := fun _ => mem_append_left [visit]
  have hvisit : visit ∈ past ++ [visit] := by simp
  cases hends with
  | keeps hkeeps hvars hactive =>
    obtain ⟨earlier, hearlier, look', found', found, diff, working, hlooks', hfound, hblocked,
      hbeside, husable, hrecognised, hrest, hbindings⟩ := h.recognised hkeeps
    have hsame := (pairwise_append.mp htold).2.2 earlier hearlier visit
      mem_cons_self look' look found' found hlooks' hlooks (found_of_usable husable) hfound
      hrecognised
    have husable' := hsame.usable hlooks' hlooks hfound hblocked (hhosts earlier hearlier) husable
    refine ⟨⟨look, working, hlooks, hbeside, hvars ▸ hrest, fun name hname => ?_⟩,
      (h.congr hvars hactive).mono hmono, hfresh'⟩
    rw [hvars, expected_eq honce (hbeside.imported himported), husable']
    exact hbindings name hname
  | moves transition working hworking hmoves hvars hactive =>
    have hbeside := h.restored hworking
    have himported' := hbeside.imported himported
    rw [Moves] at hmoves
    cases husable : usable visit.host look (working.envForCommandOs []) with
    | none =>
      rw [husable] at hmoves
      obtain ⟨own, hown, hchanges, hrecord⟩ := hmoves
      rw [hchanges] at hvars
      rw [hrecord] at hactive
      have hleft : Beside v m'.vars ∧ At v (past ++ [visit]) m' :=
        At.leave hown hworking hbeside hvars hactive
      obtain ⟨hbeside', hat⟩ := hleft
      refine ⟨⟨look, working, hlooks, hbeside, hbeside'.2, fun name hname => ?_⟩, hat, hfresh'⟩
      rw [expected_eq honce himported', husable]
      exact hbeside'.1 name hname
    | some project =>
      obtain ⟨found, diff⟩ := project
      rw [husable] at hmoves
      obtain ⟨hchanges, hrecord⟩ := hmoves
      rw [hchanges, append_assoc] at hvars
      rw [hrecord] at hactive
      obtain ⟨hbindings, hrest, hat⟩ := At.enter hvisit hlooks husable hworking hbeside hvars
        hactive
      refine ⟨⟨look, working, hlooks, hbeside, hrest, fun name hname => ?_⟩, hat, hfresh'⟩
      rw [expected_eq honce himported', husable]
      exact hbindings name hname

/-- What the visits of a shell keep to: its interpreters stay the same, name each variable
once, and paths and times tell its projects apart. -/
structure Course (v : Variables) (visits : List Visit) : Prop where
  imported : Imported v
  once : ∀ visit ∈ visits, EachNameOnce visit.host
  hosts : visits.Pairwise fun earlier later => SameInterpreters earlier.host later.host
  told : Told visits

theorem Course.initial
    (h : Course v (past ++ [visit])) : Course v past where
  imported := h.imported
  once earlier hearlier := h.once earlier (mem_append_left _ hearlier)
  hosts := (pairwise_append.mp h.hosts).1
  told := (pairwise_append.mp h.told).1

theorem Course.step {m m'}
    {changes} (h : Course v (past ++ [visit])) (hat : At v past m)
    (hfresh : Fresh m) (hrun : visit.refresh m = .ok changes m') :
    Placed v visit m' ∧ At v (past ++ [visit]) m' ∧ Fresh m' :=
  hat.step hfresh h.imported (h.once visit (by simp))
    (fun earlier hearlier => (pairwise_append.mp h.hosts).2.2 earlier hearlier visit
      mem_cons_self) h.told hrun

theorem Course.reached (hvars : start.vars = v)
    (hstate : v.binding DENV_STATE = none) (hactive : start.session.active = none)
    (hrecord : start.record = none) (h : Course v visits) :
    At v visits (runVisits visits start) ∧ Fresh (runVisits visits start) := by
  induction visits using List.reverseRecOn with
  | nil =>
    refine ⟨.out hactive ⟨fun name _ => ?_, ?_⟩ ?_, fun _ => ⟨hactive, hrecord⟩⟩
    · rw [runVisits, foldl_nil, hvars]
    · rw [runVisits, foldl_nil, hvars]
    · rw [runVisits, foldl_nil, hvars, hstate]
  | append_singleton past visit ih =>
    obtain ⟨hat, hfresh⟩ := ih h.initial
    have hrun : runVisits (past ++ [visit]) start =
        after (visit.refresh (runVisits past start)) := by
      rw [runVisits, foldl_append, ← runVisits]
      rfl
    rw [hrun]
    cases hresult : visit.refresh (runVisits past start) with
    | ok changes m' => exact (h.step hat hfresh hresult).2
    | error e m' =>
      obtain ⟨hvars', hactive', -, hfresh'⟩ := refresh_error hfresh hresult
      refine ⟨(hat.congr hvars' hactive').mono fun _ => mem_append_left [visit], hfresh'⟩

/-- **The environment of a place**: after any visits, a refresh that returns leaves the
store at the start, apart from denv's own variables, or this store with the result of
evaluating the current project in it, denv's own variables being as they are. A refresh
that fails leaves the store and the active record. -/
theorem store_of_place (v : Variables) (start : Machine Unit) (hvars : start.vars = v)
    (hstate : v.binding DENV_STATE = none) (hactive : start.session.active = none)
    (hrecord : start.record = none) (past : List Visit) (visit : Visit)
    (h : Course v (past ++ [visit])) : Settles v visit (runVisits past start) := by
  obtain ⟨hat, hfresh⟩ := h.initial.reached hvars hstate hactive hrecord
  constructor
  · intro changes m' hresult
    exact (h.step hat hfresh hresult).1
  · intro e m' hresult
    obtain ⟨hvars', hactive', hrecord', -⟩ := refresh_error hfresh hresult
    exact ⟨hvars', hactive', hrecord'⟩

/-! ### Two projects -/

/-- `/a` and `/b`, whose contents are their names. The second assigns `LAST` what
`__DENV_DIR` is when it is evaluated. -/
def Host.twoProjects : Host Unit :=
  .still [(ShellBytes.ofText "/a/.envrc".toList, [0x61]), (ShellBytes.ofText "/b/.envrc".toList, [0x62])]
    fun source environment =>
      if source = [0x62] then
        .ok [(ShellBytes.ofText "LAST".toList,
          (environment (ShellBytes.ofText "__DENV_DIR".toList)).getD [])]
      else .ok []

/-- A visit to one of the two, which are trusted. -/
def Visit.project (name : UInt8) : Visit where
  host := .twoProjects
  allow key :=
    if key = trustKey (ShellBytes.ofText "/a/.envrc".toList) then
      some (ShellBytes.ofText (Sha256.hexDigest [0x61]))
    else if key = trustKey (ShellBytes.ofText "/b/.envrc".toList) then
      some (ShellBytes.ofText (Sha256.hexDigest [0x62]))
    else none
  cwd := [0x2F, name]
  force := false

/-- **The directory visited before shows**: after `/a`, the project of `/b` is evaluated
with `__DENV_DIR` set to `/a`. -/
theorem earlier_directory_shows :
    (runVisits [.project 0x61, .project 0x62] (.fresh [0x2F])).vars.getBytes "LAST".toList =
        some [0x2F, 0x61] ∧
      (runVisits [.project 0x62] (.fresh [0x2F])).vars.getBytes "LAST".toList = some [] := by
  decide +kernel

theorem eachNameOnce_twoProjects : EachNameOnce .twoProjects := by
  refine ⟨nofun, fun dir source entries env after h => ?_⟩
  change (if source = [0x62] then _ else _) = _ at h
  split at h
  · obtain rfl := Except.ok.inj h
    exact pairwise_singleton _ _
  · obtain rfl := Except.ok.inj h
    exact List.Pairwise.nil

theorem told_projects : Told [.project 0x61, .project 0x62] := by
  refine pairwise_pair.mpr fun look look' found found' hlooks hlooks' hfound hfound' h => ?_
  have hdir : found.dir = [0x2F, 0x61] := by
    have hlookup := hlooks.found.trans hfound
    have hcomputed : ((findEnvFiles Host.twoProjects [0x2F, 0x61] ()).1.map (·.dir)) =
        some [0x2F, 0x61] := by decide
    rw [show (Visit.project 0x61).host = Host.twoProjects from rfl] at hlookup
    rw [show (Visit.project 0x61).cwd = [0x2F, 0x61] from rfl] at hlookup
    rw [hlookup] at hcomputed
    exact some.inj hcomputed
  have hdir' : found'.dir = [0x2F, 0x62] := by
    have hlookup := hlooks'.found.trans hfound'
    have hcomputed : ((findEnvFiles Host.twoProjects [0x2F, 0x62] ()).1.map (·.dir)) =
        some [0x2F, 0x62] := by decide
    rw [show (Visit.project 0x62).host = Host.twoProjects from rfl] at hlookup
    rw [show (Visit.project 0x62).cwd = [0x2F, 0x62] from rfl] at hlookup
    rw [hlookup] at hcomputed
    exact some.inj hcomputed
  obtain ⟨-, -, hpath | hpath | hpath⟩ := h
  · rw [hdir, hdir'] at hpath
    exact absurd hpath (by decide)
  · have hcanonical : ((Visit.project 0x62).host.canonicalize found'.dir ()).1 = .ok found'.dir := rfl
    rw [hcanonical, hdir, hdir', Except.ok.injEq] at hpath
    exact absurd hpath (by decide)
  · have hplace : place (Visit.project 0x61).host found = found.dir := rfl
    rw [hplace, hdir, hdir'] at hpath
    exact absurd hpath (by decide)

theorem course_projects : Course .newClean [.project 0x61, .project 0x62] where
  imported := nofun
  once visit hvisit := by
    rcases mem_pair.mp hvisit with rfl | rfl
    · exact eachNameOnce_twoProjects
    · exact eachNameOnce_twoProjects
  hosts := pairwise_pair.mpr ⟨rfl, rfl⟩
  told := told_projects

/-- `/b` after `/a`. -/
theorem store_of_place_projects :
    Settles .newClean (.project 0x62) (runVisits [.project 0x61] (.fresh [0x2F])) :=
  store_of_place .newClean (.fresh [0x2F]) rfl (by decide) rfl rfl [.project 0x61] (.project 0x62)
    course_projects

end Ish.Denv
