import Ish.Denv.Place

/-!
# The precedence of `.env`

What a load leaves at the names of `.env`, by each way of evaluating a project: a lone
`.env` is compared with the environment entry by entry, `bash` has the entries put into
its second snapshot, and an epsh shell has them set before its snapshot is taken.
-/

namespace Ish.Denv

open Ish.Epsh Ish.Lib EState
open List hiding after
open Option (bind_some map_some none_or some_inj some_or)

/-! ## Lookups in snapshots -/

/-- The value of a variable, if it is exported. -/
def exportedValue (var : Var) : Option ShellBytes := if var.flags.EXPORT then var.value else none

/-- What a process that is started sees at a name. -/
def exported (v : Variables) (name : Text) : Option ShellBytes :=
  (v.binding name).bind exportedValue

theorem lookup_exportedEntries (name : Text) (entries : List (Sigma fun _ : Text => Var)) :
    ((entries.filterMap fun entry =>
        (exportedValue entry.2).map (entry.1, ·)).map fun e => (ShellBytes.ofText e.1, e.2)).lookup
        (ShellBytes.ofText name) =
      ((entries.filterMap fun entry =>
        (exportedValue entry.2).map (entry.1, ·)).lookup name) := by
  induction entries.filterMap fun entry => (exportedValue entry.2).map (entry.1, ·) with
  | nil => rfl
  | cons entry rest ih =>
    rw [map_cons, lookup_cons, lookup_cons, ih]
    by_cases hname : name = entry.1
    · rw [hname, beq_self_eq_true, beq_self_eq_true]
    · have hbytes : ShellBytes.ofText name ≠ ShellBytes.ofText entry.1 := fun heq =>
        hname (Utf8.encode_injective heq)
      rw [beq_false_of_ne hname, beq_false_of_ne hbytes]

variable {name : Text}

theorem lookup_exported_of_nodup {entries : List (Sigma fun _ : Text => Var)}
    (h : entries.NodupKeys) :
    (entries.filterMap fun entry => (exportedValue entry.2).map (entry.1, ·)).lookup name =
      (entries.dlookup name).bind exportedValue := by
  induction entries with
  | nil => rfl
  | cons entry rest ih =>
    obtain ⟨key, var⟩ := entry
    rw [nodupKeys_cons] at h
    have hrest := ih h.2
    by_cases hname : name = key
    · subst hname
      rw [dlookup_cons_eq, filterMap_cons]
      cases hvalue : exportedValue var with
      | none =>
        -- The name stands nowhere else.
        dsimp only [Option.map_none]
        rw [hrest, dlookup_eq_none.mpr h.1, bind_some, hvalue]
        rfl
      | some value =>
        dsimp only [map_some]
        rw [lookup_cons_self, bind_some, hvalue]
    · rw [dlookup_cons_ne _ _ hname, filterMap_cons, ← hrest]
      cases exportedValue var with
      | none => rfl
      | some value => rw [map_some, lookup_cons, beq_false_of_ne hname]

/-- **The environment of a store, at the name of a variable.** -/
theorem lookup_envForCommandOs {v : Variables} (himported : Imported v)
    (hvalid : isValidEnvKey name = true) :
    (v.envForCommandOs []).lookup (ShellBytes.ofText name) = exported v name := by
  have hname := isShellNameBytes_of_valid hvalid
  have hinherited : ∀ p : ShellBytes × ShellBytes → Bool,
      (v.inherited_env.filter p).lookup (ShellBytes.ofText name) = none := by
    intro p
    rw [lookup_eq_none_iff]
    intro entry hentry
    have hentry' := himported entry (mem_of_mem_filter hentry)
    rw [bne_iff_ne]
    intro heq
    rw [← heq, hname] at hentry'
    cases hentry'
  have hexported : v.exportedEnvBytes =
      v.vars.entries.filterMap fun entry => (exportedValue entry.2).map (entry.1, ·) := by
    unfold Variables.exportedEnvBytes exportedValue
    refine filterMap_congr fun entry _ => ?_
    split <;> rfl
  rw [Variables.envForCommandOs]
  simp only [map_nil, append_nil, contains_nil, Bool.not_false, filter_true]
  rw [lookup_append, hinherited, none_or, hexported, lookup_exportedEntries,
    lookup_exported_of_nodup v.vars.nodupKeys]
  rfl

theorem lookup_cons_eq (entry : Text × ShellBytes) (env : Env) (name : Text) :
    List.lookup name (entry :: env) = if name = entry.1 then some entry.2 else env.lookup name := by
  by_cases hname : name = entry.1
  · rw [if_pos hname, hname, lookup_cons_self]
  · rw [if_neg hname, lookup_cons_of_ne hname]

/-- The value at a name does not depend on the order, where no name stands twice. -/
theorem lookup_perm {env env' : Env} (h : env.Perm env')
    (hdistinct : env.Pairwise fun left right => left.1 ≠ right.1) (name : Text) :
    env.lookup name = env'.lookup name := by
  induction h with
  | nil => rfl
  | cons entry h ih =>
    rw [lookup_cons, lookup_cons, ih (pairwise_cons.mp hdistinct).2]
  | swap first second rest =>
    have hne : second.1 ≠ first.1 :=
      (pairwise_cons.mp hdistinct).1 first mem_cons_self
    rw [lookup_cons_eq, lookup_cons_eq, lookup_cons_eq, lookup_cons_eq]
    by_cases hname : name = first.1
    · have hother : name ≠ second.1 := fun heq => hne (heq.symm.trans hname)
      rw [if_neg hother, if_neg hother]
    · rw [if_neg hname, if_neg hname]
  | trans h h' ih ih' =>
    have hdistinct' := (h.pairwise_iff fun hne => Ne.symm hne).mp hdistinct
    exact (ih hdistinct).trans (ih' hdistinct')

theorem lookup_filtered {entries : Snapshot}
    (hdistinct : (entries.filterMap filteredEntry).Pairwise fun left right => left.1 ≠ right.1)
    (hvalid : isValidEnvKey name = true) :
    (filteredEnvFromSnapshot entries).lookup name =
      if isIgnoredEnvKey name then none else entries.lookup (ShellBytes.ofText name) := by
  have hperm := (entries.filterMap filteredEntry).perm_insertionSort
    fun left right : Text × ShellBytes => left.1 ≤ right.1
  rw [filteredEnvFromSnapshot, ← lookup_perm hperm.symm hdistinct name]
  clear hdistinct hperm
  induction entries with
  | nil => simp
  | cons entry entries ih =>
    rw [filterMap_cons, lookup_cons]
    by_cases hname : ShellBytes.ofText name = entry.1
    · rw [hname, beq_self_eq_true]
      have hkept : filteredEntry entry =
          if isValidEnvKey name && !isIgnoredEnvKey name then some (name, entry.2) else none := by
        rw [filteredEntry, ← hname, asUtf8Str_ofText]
        rfl
      rw [hkept, hvalid, Bool.true_and]
      by_cases hignored : isIgnoredEnvKey name = true
      · rw [hignored] at ih ⊢
        rw [if_neg (by decide)]
        exact ih
      · rw [Bool.eq_false_iff.mpr hignored, if_pos (by decide)]
        dsimp only
        rw [lookup_cons_self, if_neg (by decide)]
    · rw [beq_false_of_ne hname, ← ih]
      cases hkept : filteredEntry entry with
      | none => rfl
      | some kept =>
        have hother : name ≠ kept.1 := by
          rintro rfl
          exact hname (filteredEntry_key hkept).symm
        dsimp only
        rw [lookup_cons, beq_false_of_ne hother]

theorem lookup_assignSorted (key : Text) (value : ShellBytes) (h : env.Sorted)
    (name : Text) :
    (assignSorted key value env).lookup name = if name = key then some value else env.lookup name := by
  induction env with
  | nil => exact lookup_cons_eq (key, value) [] name
  | cons first env ih =>
    have hrest := ih (pairwise_cons.mp h).2
    rw [assignSorted]
    by_cases hlt : first.1 < key
    · rw [if_pos hlt, lookup_cons_eq, lookup_cons_eq, hrest]
      by_cases hname : name = first.1
      · have hother : name ≠ key := hname ▸ hlt.ne
        rw [if_pos hname, if_neg hother, if_pos hname]
      · rw [if_neg hname, if_neg hname]
    · rw [if_neg hlt]
      by_cases heq : first.1 = key
      · rw [if_pos heq, lookup_cons_eq, lookup_cons_eq, heq]
        split <;> rfl
      · rw [if_neg heq, lookup_cons_eq]

/-! ## The entries of `.env` -/

/-- The entries as assignments of bytes. -/
def asBytes (entries : List (Text × Text)) : Env :=
  entries.map fun entry => (entry.1, ShellBytes.ofText entry.2)

/-- The value of the last entry of a name. -/
def lastEntry (entries : List (Text × Text)) (name : Text) : Option ShellBytes :=
  lastValue name (asBytes entries)

theorem lastEntry_cons (entry : Text × Text) (entries : List (Text × Text)) (name : Text) :
    lastEntry (entry :: entries) name =
      (lastEntry entries name).or
        (if entry.1 = name then some (ShellBytes.ofText entry.2) else none) := rfl

variable {entries : List (Text × Text)}

theorem lastEntry_eq_none : lastEntry entries name = none ↔ name ∉ entries.map (·.1) := by
  rw [lastEntry, lastValue_eq_none, asBytes, map_map]
  rfl

theorem lookup_assignEntries (entries : List (Text × Text)) (h : env.Sorted)
    (name : Text) :
    (assignEntries entries env).lookup name = (lastEntry entries name).or (env.lookup name) := by
  rw [assignEntries]
  induction entries generalizing env with
  | nil => rfl
  | cons entry entries ih =>
    rw [foldl_cons, ih (assignSorted_sorted h), lookup_assignSorted _ _ h, lastEntry_cons,
      Option.or_assoc]
    by_cases hname : entry.1 = name
    · rw [if_pos hname, if_pos hname.symm, some_or]
    · rw [if_neg hname, if_neg (Ne.symm hname), none_or]

/-- A lone `.env` assigns the entries whose value the environment does not have. -/
theorem lastValue_diffDotenvOnly (entries : List (Text × Text)) (environment : Snapshot)
    (name : Text) :
    lastValue name (diffDotenvOnly entries environment).set =
      lastEntry (entries.filter fun entry =>
        environment.lookup (ShellBytes.ofText entry.1) ≠ some (ShellBytes.ofText entry.2)) name := rfl

/-! ## Setting the entries in a shell -/

/-- The entries set and exported in the shell that has run `.envrc`, in `eval_env_epsh`. -/
def setDotenv (debug : Text → Text) : List (Text × Text) → Variables → Except Text Variables
  | [], vars => .ok vars
  | (key, value) :: entries, vars =>
    match vars.set key value with
    | .ok vars => setDotenv debug entries (vars.exportVar key)
    | .error err => .error ("set ".toList ++ key ++ " from .env: ".toList ++ debug err)

theorem exported_set
    (h : vars.set key value = .ok later) :
    (later.exportVar key).rest = vars.rest ∧
      ∀ name, exported (later.exportVar key) name =
        if name = key then some (ShellBytes.ofText value) else exported vars name := by
  rw [Variables.set, Variables.setBytes] at h
  split at h
  · cases h
  · obtain rfl := Except.ok.inj h
    refine ⟨rfl, fun name => ?_⟩
    unfold exported Variables.exportVar
    rw [Variables.binding_insert]
    by_cases hname : name = key
    · subst hname
      rw [Function.update_self, if_pos rfl, Variables.entry, Variables.binding_insert,
        Function.update_self]
      rfl
    · rw [Function.update_of_ne hname, if_neg hname, Variables.binding_insert,
        Function.update_of_ne hname]

theorem setDotenv_ok
    (h : setDotenv debug entries vars = .ok vars') :
    vars'.rest = vars.rest ∧
      ∀ name, exported vars' name = (lastEntry entries name).or (exported vars name) := by
  induction entries generalizing vars with
  | nil =>
    obtain rfl := Except.ok.inj h
    exact ⟨rfl, fun _ => rfl⟩
  | cons entry entries ih =>
    obtain ⟨key, value⟩ := entry
    rw [setDotenv] at h
    cases hset : vars.set key value with
    | error err =>
      rw [hset] at h
      cases h
    | ok later =>
      rw [hset] at h
      obtain ⟨hrest, hexported⟩ := ih h
      obtain ⟨hrest', hentry⟩ := exported_set hset
      refine ⟨hrest.trans hrest', fun name => ?_⟩
      rw [hexported, hentry, lastEntry_cons, Option.or_assoc]
      by_cases hname : key = name
      · rw [if_pos hname, if_pos hname.symm, some_or]
      · rw [if_neg hname, if_neg (Ne.symm hname), none_or]

/-! ## Loading a project -/

variable {W : Type}

/-- What a shell that has run `.envrc` is left with. -/
abbrev RunEnvrc (W : Type) := Path → ShellBytes → (ShellBytes → Option ShellBytes) →
  StateM W (Except Text { vars : Variables // Imported vars })

/-- `eval_env_epsh`, to its second snapshot. -/
def evalEnvEpsh (debug : Text → Text) (run : RunEnvrc W) (dir : Path) (source : ShellBytes)
    (entries : List (Text × Text)) (environment : ShellBytes → Option ShellBytes) :
    StateM W (Except Text Snapshot) := do
  match ← run dir source environment with
  | .error e => return .error e
  | .ok shell => return (setDotenv debug entries shell.1).map fun vars => vars.envForCommandOs []

/-- The host whose epsh evaluations are those of a shell. -/
def Host.withShell (host : Host W) (run : RunEnvrc W) : Host W :=
  { host with epsh := evalEnvEpsh host.debug run }

/-- `env -0` in `bash` names each variable once, and before `.envrc` it shows the
environment `bash` was started in, at the names of `.env`. -/
def BashPrints (host : Host W) (entries : List (Text × Text)) (env_pairs : Snapshot) : Prop :=
  ∀ dir source w before after,
    (host.bash dir source (fun key => env_pairs.lookup key) w).1 = .ok (before, after) →
      Snapshot.Distinct ((splitNull before).filterMap splitEntry) ∧
      Snapshot.Distinct ((splitNull after).filterMap splitEntry) ∧
      ∀ name ∈ entries.map (·.1),
        (parseEnvNull before).lookup name = (filteredEnvFromSnapshot env_pairs).lookup name

/-- What the changes of a diff leave of the value of an exported variable. -/
def afterOutcome (outcome : Option (Option ShellBytes)) (old : Option ShellBytes) :
    Option ShellBytes :=
  match outcome with
  | none => old
  | some value => value

theorem bind_written (outcome : Option (Option ShellBytes)) (binding : Option Var) :
    (written outcome binding).bind exportedValue =
      afterOutcome outcome (binding.bind exportedValue) := by
  rcases outcome with _ | _ | value <;> rfl

theorem afterOutcome_diffSorted {before after} (hbefore : before.Sorted)
    (hafter : after.Sorted) (name : Text) (old : Option ShellBytes) :
    afterOutcome ((diffSortedEnv before after).outcome name) old =
      if after.lookup name = before.lookup name then old else after.lookup name := by
  rw [diffSortedEnv_outcome before after hbefore hafter]
  split <;> rfl

/-! ### A lone `.env` -/

section

variable (entries : List (Text × Text)) (environment : Snapshot) (name : Text)

/-- Whether a lone `.env` assigns an entry. -/
def isNew (entry : Text × Text) : Bool :=
  environment.lookup (ShellBytes.ofText entry.1) ≠ some (ShellBytes.ofText entry.2)

theorem afterOutcome_dotenvOnly (old : Option ShellBytes) :
    afterOutcome ((diffDotenvOnly entries environment).outcome name) old =
      (lastEntry (entries.filter (isNew environment)) name).or old := by
  have hunset : name ∉ (diffDotenvOnly entries environment).unset := not_mem_nil
  rw [EnvDiff.outcome, if_neg hunset, lastValue_diffDotenvOnly]
  change afterOutcome ((lastEntry (entries.filter (isNew environment)) name).map some) old = _
  cases lastEntry (entries.filter (isNew environment)) name <;> rfl

variable {entries environment name}

theorem exists_of_lastEntry (h : lastEntry entries name = some value) :
    ∃ entry ∈ entries, entry.1 = name ∧ ShellBytes.ofText entry.2 = value := by
  induction entries with
  | nil => cases h
  | cons entry entries ih =>
    rw [lastEntry_cons, Option.or_eq_some_iff] at h
    rcases h with h | ⟨-, h⟩
    · obtain ⟨other, hmem, hother⟩ := ih h
      exact ⟨other, mem_cons_of_mem entry hmem, hother⟩
    · split at h
      · rename_i hname
        exact ⟨entry, mem_cons_self, hname, Option.some.inj h⟩
      · cases h

theorem lastEntry_new (h : lastEntry entries name = some value)
    (hne : environment.lookup (ShellBytes.ofText name) ≠ some value) :
    lastEntry (entries.filter (isNew environment)) name = some value := by
  induction entries with
  | nil => cases h
  | cons entry entries ih =>
    rw [lastEntry_cons, Option.or_eq_some_iff] at h
    rcases h with h | ⟨hnone, h⟩
    · have hrest := ih h
      rw [filter_cons]
      split
      · rw [lastEntry_cons, hrest, some_or]
      · exact hrest
    · split at h
      · rename_i hname
        obtain rfl := Option.some.inj h
        have hnew : isNew environment entry = true := by
          rw [isNew, hname]
          exact decide_eq_true hne
        have hfilter : lastEntry (entries.filter (isNew environment)) name = none := by
          rw [lastEntry_eq_none] at hnone ⊢
          intro hmem
          obtain ⟨other, hother, heq⟩ := mem_map.mp hmem
          exact hnone (mem_map.mpr ⟨other, mem_of_mem_filter hother, heq⟩)
        rw [filter_cons_of_pos hnew, lastEntry_cons, hfilter, none_or, if_pos hname]
      · cases h

theorem lastEntry_known
    (hknown : environment.lookup (ShellBytes.ofText name) = some value) :
    (lastEntry (entries.filter (isNew environment)) name).or (some value) = some value ↔
      ∀ entry ∈ entries, entry.1 = name → ShellBytes.ofText entry.2 = value := by
  have hnew : ∀ entry : Text × Text, entry.1 = name →
      (isNew environment entry = true ↔ ShellBytes.ofText entry.2 ≠ value) := by
    rintro entry rfl
    rw [isNew, hknown, decide_eq_true_iff, ne_eq, some_inj, eq_comm]
  cases hlast : lastEntry (entries.filter (isNew environment)) name with
  | none =>
    rw [none_or]
    refine iff_of_true rfl fun entry hentry hname => ?_
    by_contra hne
    refine lastEntry_eq_none.mp hlast (mem_map.mpr ⟨entry, ?_, hname⟩)
    exact mem_filter.mpr ⟨hentry, (hnew entry hname).mpr hne⟩
  | some other =>
    obtain ⟨entry, hentry, hname, rfl⟩ := exists_of_lastEntry hlast
    obtain ⟨hmem, hentry'⟩ := mem_filter.mp hentry
    have hne := (hnew entry hname).mp hentry'
    rw [some_or, some_inj]
    exact iff_of_false hne fun h => hne (h entry hmem hname)

end

/-! ### The condition -/

/-- Where the entries of `.env` take precedence at a name: by the way the project is
evaluated, when no earlier entry has another value than the one that the last entry and the
environment have (a lone `.env`), always (`bash`), and when the snapshots do not ignore the
name, or the environment has the value of the last entry (epsh). -/
def PrecedesAt (environment : Snapshot) (entries : List (Text × Text)) (name : Text) :
    Option TrustCandidate → Prop
  | none =>
    environment.lookup (ShellBytes.ofText name) = lastEntry entries name →
      ∀ entry ∈ entries, entry.1 = name → some (ShellBytes.ofText entry.2) = lastEntry entries name
  | some file =>
    usesBash file.bytes = true ∨ isIgnoredEnvKey name = false ∨
      environment.lookup (ShellBytes.ofText name) = lastEntry entries name

/-- The entries take precedence at each of their names. -/
def Precedes (look : Look) (environment : Snapshot) : Prop :=
  ∀ name ∈ look.dotenv_entries.map (·.1),
    PrecedesAt environment look.dotenv_entries name look.envrc_file

theorem exists_lastEntry
    (h : name ∈ entries.map (·.1)) : ∃ value, lastEntry entries name = some value := by
  rw [← Option.isSome_iff_exists, Option.isSome_iff_ne_none]
  exact fun hnone => lastEntry_eq_none.mp hnone h

theorem precedes_dotenvOnly (hname : name ∈ entries.map (·.1)) :
    afterOutcome ((diffDotenvOnly entries environment).outcome name)
        (environment.lookup (ShellBytes.ofText name)) = lastEntry entries name ↔
      (environment.lookup (ShellBytes.ofText name) = lastEntry entries name →
        ∀ entry ∈ entries, entry.1 = name →
          some (ShellBytes.ofText entry.2) = lastEntry entries name) := by
  obtain ⟨value, hvalue⟩ := exists_lastEntry hname
  rw [afterOutcome_dotenvOnly, hvalue]
  by_cases hknown : environment.lookup (ShellBytes.ofText name) = some value
  · rw [hknown, lastEntry_known hknown]
    simp only [some_inj, forall_const]
  · rw [lastEntry_new hvalue hknown, some_or]
    exact iff_of_true rfl fun h => absurd h hknown

/-! ### The diff of a load -/

theorem evalEnvEpsh_ok {debug : Text → Text} {run : RunEnvrc W} {dir : Path}
    {environment w}
    {after} (h : (evalEnvEpsh debug run dir source entries environment w).1 = .ok after) :
    ∃ (shell : { vars : Variables // Imported vars }) (vars : Variables),
      setDotenv debug entries shell.1 = .ok vars ∧ after = vars.envForCommandOs [] := by
  change ((match (run dir source environment w).1 with
    | .error e => (return .error e : StateM W (Except Text Snapshot))
    | .ok shell =>
      return (setDotenv debug entries shell.1).map fun vars => Variables.envForCommandOs vars [])
      (run dir source environment w).2).1 = _ at h
  cases hrun : (run dir source environment w).1 with
  | error e =>
    rw [hrun] at h
    cases h
  | ok shell =>
    rw [hrun] at h
    change (setDotenv debug entries shell.1).map
      (fun vars => Variables.envForCommandOs vars []) = _ at h
    cases hset : setDotenv debug entries shell.1 with
    | error e =>
      rw [hset] at h
      cases h
    | ok vars =>
      rw [hset] at h
      exact ⟨shell, vars, hset, (Except.ok.inj h).symm⟩

theorem evalEnv_ok {host : Host W} {run : RunEnvrc W} {dir : Path}
    {env_pairs w snapshots}
    (h : (evalEnv (host.withShell run) dir source entries env_pairs w).1 = .ok snapshots) :
    if usesBash source then
      ∃ dir w before after,
        (host.bash dir source (fun key => env_pairs.lookup key) w).1 = .ok (before, after) ∧
        snapshots = (parseEnvNull before, assignEntries entries (parseEnvNull after))
    else
      ∃ (shell : { vars : Variables // Imported vars }) (vars : Variables),
        setDotenv host.debug entries shell.1 = .ok vars ∧
        snapshots = (filteredEnvFromSnapshot env_pairs,
          filteredEnvFromSnapshot (vars.envForCommandOs [])) := by
  by_cases hbash : usesBash source = true
  · rw [if_pos hbash]
    rw [evalEnv, if_pos hbash] at h
    by_cases hnul : 0 ∈ source
    · rw [if_pos hnul] at h
      cases h
    · have hhost : (host.withShell run).bash = host.bash := rfl
      rw [if_neg hnul, bind_run, hhost] at h
      cases hdata : (host.bash dir source (fun key => env_pairs.lookup key) w).1 with
      | error e =>
        rw [hdata] at h
        cases h
      | ok data =>
        rw [hdata] at h
        exact ⟨dir, w, data.1, data.2, hdata, (Except.ok.inj h).symm⟩
  · rw [if_neg hbash]
    rw [evalEnv, if_neg hbash] at h
    cases htext : asUtf8Str source with
    | none =>
      rw [htext] at h
      cases h
    | some text =>
      have hhost : (host.withShell run).epsh = evalEnvEpsh host.debug run := rfl
      rw [htext] at h
      dsimp only at h
      rw [bind_run, hhost] at h
      cases hafter : (evalEnvEpsh host.debug run dir source entries
          (fun key => env_pairs.lookup key) w).1 with
      | error e =>
        rw [hafter] at h
        cases h
      | ok after =>
        rw [hafter] at h
        obtain ⟨shell, vars, hset, rfl⟩ := evalEnvEpsh_ok hafter
        exact ⟨shell, vars, hset, (Except.ok.inj h).symm⟩

variable {found : EnvFiles}

/-- How an evaluation that succeeds comes to its diff. -/
theorem evalProject_some {host : Host W} {run : RunEnvrc W}
    {file : TrustCandidate} {env_pairs w diff}
    (h : (evalProject (host.withShell run) found (some file) entries env_pairs w).1 = .ok diff) :
    ∃ dir w snapshots,
      (evalEnv (host.withShell run) dir file.bytes entries env_pairs w).1 = .ok snapshots ∧
      diff = diffSortedEnv snapshots.1 snapshots.2 := by
  rw [evalProject, bind_run, bind_run] at h
  generalize canonicalizeFallback (host.withShell run) found.dir w = place at h
  cases hresult : (evalEnv (host.withShell run) place.1 file.bytes entries env_pairs place.2).1 with
  | error e =>
    rw [hresult] at h
    cases h
  | ok snapshots =>
    rw [hresult] at h
    exact ⟨place.1, place.2, snapshots, hresult, (Except.ok.inj h).symm⟩

theorem afterOutcome_entry {before after} (hbefore : before.Sorted) (hafter : after.Sorted)
    (hshows : before.lookup name = if isIgnoredEnvKey name then none else old)
    (hsets : after.lookup name = some value) :
    afterOutcome ((diffSortedEnv before after).outcome name) old = some value := by
  rw [afterOutcome_diffSorted hbefore hafter, hsets, hshows]
  by_cases hignored : isIgnoredEnvKey name = true
  · rw [if_pos hignored, if_neg nofun]
  · rw [if_neg hignored]
    split
    · rename_i heq
      exact heq.symm
    · rfl

/-- One name of `.env` after a load. -/
theorem precedes_name {host : Host W} {run : RunEnvrc W} {envrc_file : Option TrustCandidate}
    {working w diff} (himported : Imported working)
    (hbash : BashPrints host entries (working.envForCommandOs []))
    (h : (evalProject (host.withShell run) found envrc_file entries
      (working.envForCommandOs []) w).1 = .ok diff)
    (hname : name ∈ entries.map (·.1)) (hvalid : isValidEnvKey name = true) :
    afterOutcome (diff.outcome name) (exported working name) = lastEntry entries name ↔
      PrecedesAt (working.envForCommandOs []) entries name envrc_file := by
  have hlookup := lookup_envForCommandOs himported hvalid
  have hshows := lookup_filtered (env_distinct himported) hvalid
  rw [hlookup] at hshows
  obtain ⟨value, hvalue⟩ := exists_lastEntry hname
  cases envrc_file with
  | none =>
    obtain rfl := Except.ok.inj h
    rw [← hlookup]
    exact precedes_dotenvOnly hname
  | some file =>
    obtain ⟨dir, w, snapshots, hsnapshots, rfl⟩ := evalProject_some h
    have hevaluated := evalEnv_ok hsnapshots
    rw [PrecedesAt, hlookup, hvalue]
    by_cases hbashed : usesBash file.bytes = true
    · rw [if_pos hbashed] at hevaluated
      obtain ⟨dir, w, before, after, hprints, rfl⟩ := hevaluated
      obtain ⟨hbefore, hafter, hsame⟩ := hbash dir file.bytes w before after hprints
      have hentry := hsame name hname
      rw [hshows] at hentry
      have hsorted : (parseEnvNull after).Sorted := filteredEnv_sorted hafter.filtered
      have hsets : (assignEntries entries (parseEnvNull after)).lookup name = some value := by
        rw [lookup_assignEntries _ hsorted, hvalue, some_or]
      exact iff_of_true (afterOutcome_entry (filteredEnv_sorted hbefore.filtered)
        (assignEntries_sorted _ hsorted) hentry hsets) (.inl hbashed)
    · rw [if_neg hbashed] at hevaluated
      obtain ⟨shell, vars, hset, rfl⟩ := hevaluated
      obtain ⟨hrest, hexported⟩ := setDotenv_ok hset
      have himported' : Imported vars := by
        have hinherited : vars.inherited_env = shell.1.inherited_env := congrArg (·.1) hrest
        rw [Imported, hinherited]
        exact shell.2
      have hafter := lookup_filtered (env_distinct himported') hvalid
      rw [lookup_envForCommandOs himported' hvalid, hexported, hvalue, some_or] at hafter
      have hsorted := filteredEnv_sorted (env_distinct himported)
      have hsorted' := filteredEnv_sorted (env_distinct himported')
      by_cases hignored : isIgnoredEnvKey name = true
      · -- Neither snapshot shows the name, so the diff does not have it.
        rw [if_pos hignored] at hafter
        have hnone := hshows
        rw [if_pos hignored] at hnone
        rw [afterOutcome_diffSorted hsorted hsorted', hafter, hnone, if_pos rfl]
        simp [hbashed, hignored]
      · rw [if_neg hignored] at hafter
        exact iff_of_true (afterOutcome_entry hsorted hsorted' hshows hafter)
          (.inr (.inl (Bool.eq_false_iff.mpr hignored)))

/-! ## The precedence -/

theorem enter_save {host : Host W} {look : Look} {changes : List EnvChange}
    (h : enter host look found changes working m = .ok transition m')
    (hsave : transition.record = .Save state) :
    ∃ diff dir w, (evalProject host found look.envrc_file look.dotenv_entries
        (working.envForCommandOs []) w).1 = .ok diff ∧
      transition.changes = changes ++ (applyDiff diff ++ loadedState dir found) := by
  rw [enter] at h
  obtain ⟨-, m₁, -, h⟩ := bind_eq_ok.mp h
  obtain ⟨result, m₂, hcall, h⟩ := bind_eq_ok.mp h
  have hresult : (evalProject host found look.envrc_file look.dotenv_entries
      (working.envForCommandOs []) m₁.world).1 = result := by
    cases hcall
    rfl
  cases result with
  | error e =>
    obtain ⟨dir, m₃, -, h⟩ := bind_eq_ok.mp h
    cases h
    cases hsave
  | ok diff =>
    obtain ⟨dir, m₃, -, h⟩ := bind_eq_ok.mp h
    cases h
    exact ⟨diff, dir, m₁.world, hresult, append_assoc _ _ _⟩

/-- A load of a project: from its files as they were found and read, in a store with an
active record, to a store. -/
structure Loads (host : Host W) (look : Look) (active : Option ActiveState)
    (vars working final : Variables) : Prop where
  restored : applyChanges vars (restoration active) = .ok working
  moves : ∃ m m' transition state, move host look active vars m = .ok transition m' ∧
    transition.record = .Save state ∧ applyChanges vars transition.changes = .ok final

theorem Loads.applied {host : Host W} {look : Look} (h : Loads host look active vars working final) :
    ∃ found diff dir w, (evalProject host found look.envrc_file look.dotenv_entries
        (working.envForCommandOs []) w).1 = .ok diff ∧
      applyChanges vars (restoration active ++ (applyDiff diff ++ loadedState dir found)) =
        .ok final := by
  obtain ⟨m, m', transition, state, hmove, hsave, hfinal⟩ := h.moves
  rw [move] at hmove
  obtain ⟨working', m₁, hworking, hmove⟩ := bind_eq_ok.mp hmove
  obtain ⟨hrestored, rfl⟩ := ofExcept_eq_ok.mp hworking
  obtain rfl := Except.ok.inj (h.restored.symm.trans hrestored)
  cases hfound : look.found with
  | none =>
    rw [hfound] at hmove
    cases hmove
    cases hsave
  | some found =>
    cases hblocked : look.blocked with
    | some file =>
      rw [hfound, hblocked] at hmove
      obtain ⟨dir, m₂, -, hmove⟩ := bind_eq_ok.mp hmove
      cases hmove
      cases hsave
    | none =>
      rw [hfound, hblocked] at hmove
      obtain ⟨diff, dir, w, hdiff, hchanges⟩ := enter_save hmove hsave
      exact ⟨found, diff, dir, w, hdiff, hchanges ▸ hfinal⟩

theorem notMem_OWN_NAMES (h : isReservedDotenvKey name = false) : name ∉ OWN_NAMES := by
  intro hmem
  simp only [OWN_NAMES, mem_cons, not_mem_nil, or_false] at hmem
  rcases hmem with rfl | rfl | rfl <;> exact absurd h (by decide)

/-- **The entries of `.env` take precedence**: after a load, each name of `.env` is exported
with the value of its last entry, exactly when `Precedes` holds of the environment that the
project is evaluated in. -/
theorem dotenv_has_precedence {host : Host W} {run : RunEnvrc W} {look : Look}
    {active : Option ActiveState} {vars working final : Variables}
    (hloads : Loads (host.withShell run) look active vars working final)
    (himported : Imported working)
    (haccepted : ∀ entry ∈ look.dotenv_entries, keepsEntry entry = true)
    (hbash : BashPrints host look.dotenv_entries (working.envForCommandOs [])) :
    (∀ name ∈ look.dotenv_entries.map (·.1),
        exported final name = lastEntry look.dotenv_entries name) ↔
      Precedes look (working.envForCommandOs []) := by
  obtain ⟨found, diff, dir, w, hdiff, hfinal⟩ := hloads.applied
  obtain ⟨-, hlocal⟩ := applied_after hloads.restored hfinal
  refine forall₂_congr fun name hname => ?_
  obtain ⟨entry, hentry, rfl⟩ := mem_map.mp hname
  have hkeeps := haccepted entry hentry
  simp only [keepsEntry, Bool.and_eq_true, Bool.not_eq_true'] at hkeeps
  have hbinding := binding_of_applied (names_loadedState dir found) hlocal
    (notMem_OWN_NAMES hkeeps.1.2)
  rw [exported, hbinding, bind_written]
  exact precedes_name himported hbash hdiff hname hkeeps.1.1

/-! ### Some projects -/

/-- A project in `/`, which has a `.env`. -/
def EnvFiles.inRoot (envrc : Option Text) : EnvFiles where
  dir := [0x2F]
  envrc := envrc.map fun _ => (ShellBytes.ofText "/.envrc".toList, 1)
  dotenv := some (ShellBytes.ofText "/.env".toList, 1)

/-- The project, by the text of its `.envrc` and the entries of its `.env`. -/
def Look.inRoot (envrc : Option Text) (entries : List (Text × Text)) : Look where
  found := some (.inRoot envrc)
  envrc_file := envrc.map fun text =>
    { path := ShellBytes.ofText "/.envrc".toList, bytes := ShellBytes.ofText text,
      hash := Sha256.hexDigest (ShellBytes.ofText text), hashed := rfl }
  dotenv_file := none
  blocked := none
  dotenv_entries := entries

theorem enter_run {host look changes}
    {working diff} (m : Machine Unit)
    (hdiff : (evalProject host found look.envrc_file look.dotenv_entries
      (working.envForCommandOs []) ()).1 = .ok diff) :
    enter host look found changes working m =
      .ok { changes := changes ++ applyDiff diff ++ loadedState (place host found) found
            record := .Save (activeState host found diff working) }
        { m with log := m.log ++ [.used look.files] } := by
  have hcall : call (evalProject host found look.envrc_file look.dotenv_entries
      (working.envForCommandOs [])) { m with log := m.log ++ [.used look.files] } =
      .ok (.ok diff) { m with log := m.log ++ [.used look.files] } := by
    rw [← hdiff]
    rfl
  exact bind_eq_ok.mpr ⟨(), _, rfl, bind_eq_ok.mpr ⟨.ok diff, _, hcall, rfl⟩⟩

theorem Loads.of_diff {host look vars final}
    {diff} (hfound : look.found = some found) (hblocked : look.blocked = none)
    (hdiff : (evalProject host found look.envrc_file look.dotenv_entries
      (vars.envForCommandOs []) ()).1 = .ok diff)
    (hfinal : applyChanges vars (applyDiff diff ++ loadedState (place host found) found) =
      .ok final) : Loads host look none vars vars final := by
  have henter : move host look none vars (.fresh [0x2F]) =
      enter host look found [] vars (.fresh [0x2F]) := by
    rw [move, hfound, hblocked]
    rfl
  exact ⟨rfl, .fresh [0x2F], _, _, _, henter.trans (enter_run _ hdiff), rfl, hfinal⟩

/-- A host whose `bash` has run `export A=x` in `/`. -/
def Host.bashInRoot : Host Unit :=
  { Host.still [] fun _ _ => .ok [] with
    bash := fun _ _ _ =>
      return .ok (ShellBytes.ofText "PWD=/\x00".toList,
        ShellBytes.ofText "A=x\x00PWD=/\x00".toList) }

/-- An empty `.envrc` leaves this store in an epsh shell. -/
def keepsStore (vars : Variables) (h : Imported vars) : RunEnvrc Unit :=
  fun _ _ _ => return .ok ⟨vars, h⟩

/-- The store of a shell that is started with one variable. -/
def startedWith (name value : Text) : Variables :=
  Variables.newClean.insert name (.new (some (ShellBytes.ofText value)) { EXPORT := true })

theorem imported_startedWith (name value : Text) : Imported (startedWith name value) := nofun

/-- What loading a project in `/` leaves of a store. -/
def loadedWith (vars : Variables) (envrc : Option Text) (set : Env) : Variables :=
  ((applyChanges vars
    (applyDiff ⟨set, []⟩ ++ loadedState [0x2F] (.inRoot envrc))).toOption).getD vars

/-- `A` in two entries, and in a `.envrc` for `bash`. -/
theorem dotenv_has_precedence_bash :
    exported (loadedWith .newClean (some "# bash\nexport A=x".toList)
        [(['A'], ShellBytes.ofText ['b'])]) ['A'] =
      lastEntry [(['A'], ['a']), (['A'], ['b'])] ['A'] := by
  have hloads : Loads (Host.bashInRoot.withShell (keepsStore .newClean nofun))
      (.inRoot (some "# bash\nexport A=x".toList) [(['A'], ['a']), (['A'], ['b'])])
      none .newClean .newClean
      (loadedWith .newClean (some "# bash\nexport A=x".toList) [(['A'], ShellBytes.ofText ['b'])]) :=
    @Loads.of_diff _ _ _ _ _ ⟨[(['A'], ShellBytes.ofText ['b'])], []⟩ rfl rfl (by decide +kernel) rfl
  refine (dotenv_has_precedence hloads nofun (by decide) ?_).mpr ?_ ['A'] (by decide)
  · intro dir source w before after h
    obtain ⟨rfl, rfl⟩ := Prod.mk.inj (Except.ok.inj h)
    unfold Snapshot.Distinct
    exact ⟨by decide, by decide, by decide⟩
  · exact fun name hname => .inl (by decide)

/-- **The entry before shows through**: with `K=b` in the environment, the entries `K=a` and
`K=b` of a lone `.env` leave `a`. An epsh evaluation leaves `PWD` as it was. -/
theorem earlier_entry_shows :
    (∃ final, Loads (Host.bashInRoot.withShell (keepsStore .newClean nofun))
        (.inRoot none [(['K'], ['a']), (['K'], ['b'])]) none (startedWith ['K'] ['b'])
        (startedWith ['K'] ['b']) final ∧
      exported final ['K'] = some (ShellBytes.ofText ['a']) ∧
      lastEntry [(['K'], ['a']), (['K'], ['b'])] ['K'] = some (ShellBytes.ofText ['b'])) ∧
    ∃ final, Loads (Host.bashInRoot.withShell
          (keepsStore (startedWith "PWD".toList ['/']) (imported_startedWith _ _)))
        (.inRoot (some []) [("PWD".toList, ['x'])]) none (startedWith "PWD".toList ['/'])
        (startedWith "PWD".toList ['/']) final ∧
      exported final "PWD".toList = some (ShellBytes.ofText ['/']) ∧
      lastEntry [("PWD".toList, ['x'])] "PWD".toList = some (ShellBytes.ofText ['x']) := by
  constructor
  · exact ⟨loadedWith (startedWith ['K'] ['b']) none [(['K'], ShellBytes.ofText ['a'])],
      @Loads.of_diff _ _ _ _ _ ⟨[(['K'], ShellBytes.ofText ['a'])], []⟩ rfl rfl
        (by decide) rfl, by decide, by decide⟩
  · exact ⟨loadedWith (startedWith "PWD".toList ['/']) (some []) [],
      @Loads.of_diff _ _ _ _ _ ⟨[], []⟩ rfl rfl (by decide +kernel) rfl,
      by decide, by decide⟩

end Ish.Denv
