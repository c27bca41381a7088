import Mathlib.Data.Char
import Mathlib.Data.List.Lex
import Mathlib.Data.List.Sort
import Ish.Denv.Change
import Ish.Denv.Dotenv

/-!
# The difference of two environments

The model of `filtered_env_from_snapshot`, `parse_env_null`, `diff_sorted_env` and
`diff_dotenv_only` of `src/denv.rs`, and what applying a diff leaves at one name:
`EnvDiff.outcome`. The diff of two sorted snapshots writes a name exactly when the
snapshots differ there, and leaves the later one's value.
-/

namespace Ish.Denv

open Ish.Epsh Ish.Lib
open List hiding set

/-- A process environment, name by name. -/
abbrev Snapshot := List (ShellBytes × ShellBytes)

abbrev Env := List (Text × ShellBytes)

def filteredEntry (entry : ShellBytes × ShellBytes) : Option (Text × ShellBytes) :=
  (asUtf8Str entry.1).bind fun key =>
    if isValidEnvKey key && !isIgnoredEnvKey key then some (key, entry.2) else none

def filteredEnvFromSnapshot (entries : Snapshot) : Env :=
  (entries.filterMap filteredEntry).insertionSort fun left right => left.1 ≤ right.1

/-- The pieces of `data.split(|byte| *byte == 0)`. -/
def splitNull : List UInt8 → List (List UInt8)
  | [] => [[]]
  | byte :: data =>
    if byte = 0 then [] :: splitNull data
    else match splitNull data with
      | [] => [[byte]]
      | piece :: pieces => (byte :: piece) :: pieces

/-- What stands before and after the first `=`. -/
def splitEntry (entry : List UInt8) : Option (ShellBytes × ShellBytes) :=
  if 0x3D ∈ entry then
    some (entry.takeWhile (· ≠ 0x3D), (entry.dropWhile (· ≠ 0x3D)).drop 1)
  else none

def parseEnvNull (data : List UInt8) : Env :=
  filteredEnvFromSnapshot ((splitNull data).filterMap splitEntry)

def diffSortedEnv : Env → Env → EnvDiff
  | [], after => { set := after, unset := [] }
  | b :: before, [] => { set := [], unset := (b :: before).map (·.1) }
  | b :: before, a :: after =>
    if b.1 < a.1 then
      let diff := diffSortedEnv before (a :: after)
      { diff with unset := b.1 :: diff.unset }
    else if a.1 < b.1 then
      let diff := diffSortedEnv (b :: before) after
      { diff with set := a :: diff.set }
    else
      let diff := diffSortedEnv before after
      if b.2 ≠ a.2 then { diff with set := a :: diff.set } else diff
termination_by before after => before.length + after.length

/-- Each entry whose value is not the one the environment has at that name. -/
def diffDotenvOnly (entries : List (Text × Text)) (environment : Snapshot) : EnvDiff where
  set := (entries.filter fun entry =>
      environment.lookup (ShellBytes.ofText entry.1) ≠ some (ShellBytes.ofText entry.2)).map
    fun entry => (entry.1, ShellBytes.ofText entry.2)
  unset := []

/-- `after.binary_search_by` and the replacement or insertion at its index. -/
def assignSorted (key : Text) (value : ShellBytes) : Env → Env
  | [] => [(key, value)]
  | entry :: after =>
    if entry.1 < key then entry :: assignSorted key value after
    else if entry.1 = key then (key, value) :: after
    else (key, value) :: entry :: after

/-- The loop of `eval_env_bash` over the entries of `.env`. -/
def assignEntries (entries : List (Text × Text)) (after : Env) : Env :=
  entries.foldl (fun after entry => assignSorted entry.1 (ShellBytes.ofText entry.2) after) after

/-! ## What a diff leaves at one name -/

/-- The value written last. -/
def lastValue (name : Text) : Env → Option ShellBytes
  | [] => none
  | entry :: set => (lastValue name set).or (if entry.1 = name then some entry.2 else none)

/-- What a diff writes at a name, if it does: a value, or nothing. -/
def EnvDiff.outcome (diff : EnvDiff) (name : Text) : Option (Option ShellBytes) :=
  if name ∈ diff.unset then some none else (lastValue name diff.set).map some

/-- A variable as an assignment of a diff leaves it. -/
def assigned (value : ShellBytes) : Var := Var.new (some value) { EXPORT := true }

/-- A binding with `outcome` written over it. -/
def written (outcome : Option (Option ShellBytes)) (binding : Option Var) : Option Var :=
  match outcome with
  | none => binding
  | some value => value.map assigned

theorem lastValue_eq_none {name set} :
    lastValue name set = none ↔ name ∉ set.map (·.1) := by
  induction set with
  | nil => simp [lastValue]
  | cons entry set ih =>
    rw [lastValue, Option.or_eq_none_iff, ih, map_cons, mem_cons, not_or, and_comm]
    by_cases hname : entry.1 = name
    · simp [hname]
    · simp [hname, Ne.symm hname]

theorem EnvDiff.outcome_eq_none {diff : EnvDiff} {name} :
    diff.outcome name = none ↔ name ∉ diff.names := by
  rw [outcome, names, mem_append, not_or]
  split
  · next hunset => simp [hunset]
  · next hunset => simp [hunset, lastValue_eq_none]

variable {binding : Option Var}

theorem setExport_assigned (h : Free binding) :
    setExport true (Var.new (some value) (binding.getD (Var.new none {})).flags) =
      assigned value :=
  var_eq_of_free rfl (readonly_getD_of_free h) rfl rfl

theorem free_assigned : Free (some (assigned value)) := by
  rintro var ⟨rfl⟩
  rfl

theorem free_written
    (h : Free binding) : Free (written outcome binding) := by
  cases outcome with
  | none => exact h
  | some value =>
    cases value with
    | none =>
      rintro var ⟨⟩
    | some value => exact free_assigned

theorem localRun_set (name : Text) (set : Env) (hfree : name ∈ set.map (·.1) → Free binding) :
    Keyed.localRun EnvChange.effect (Keyed.commandsOf EnvChange.name name
      (set.map fun entry => EnvChange.Set entry.1 entry.2)) binding =
        .ok (written ((lastValue name set).map some) binding) := by
  induction set generalizing binding with
  | nil => rfl
  | cons entry set ih =>
    rw [map_cons, ← singleton_append, Keyed.commandsOf_append, lastValue]
    by_cases hname : entry.1 = name
    · have hb : Free binding := hfree (by simp [hname])
      have hset : (EnvChange.Set entry.1 entry.2).effect binding =
          .ok (some (assigned entry.2)) := by
        rw [EnvChange.effect, not_readonly_of_free hb, ← setExport_assigned hb]
        rfl
      rw [Keyed.commandsOf_eq_self (by simpa [EnvChange.name] using hname), if_pos hname,
        singleton_append, Keyed.localRun, hset]
      refine (ih fun _ => free_assigned).trans ?_
      cases lastValue name set <;> rfl
    · rw [Keyed.commandsOf_eq_nil (by simpa [EnvChange.name] using hname), if_neg hname,
        Option.or_none, nil_append]
      exact ih fun hmem => hfree (mem_cons_of_mem _ hmem)

theorem localRun_unset (name : Text) (unset : List Text) (hfree : name ∈ unset → Free binding) :
    Keyed.localRun EnvChange.effect
      (Keyed.commandsOf EnvChange.name name (unset.map EnvChange.Unset)) binding =
        .ok (if name ∈ unset then none else binding) := by
  induction unset generalizing binding with
  | nil => rfl
  | cons key unset ih =>
    rw [map_cons, ← singleton_append, Keyed.commandsOf_append]
    by_cases hname : key = name
    · have hb : Free binding := hfree (by simp [hname])
      have hnone : Free none := by rintro var ⟨⟩
      have hunset : (EnvChange.Unset key).effect binding = .ok none := by
        rw [EnvChange.effect, not_readonly_of_free hb]
        rfl
      rw [Keyed.commandsOf_eq_self (by simpa [EnvChange.name] using hname),
        if_pos (by simp [hname]), singleton_append, Keyed.localRun, hunset]
      refine (ih fun _ => hnone).trans ?_
      rw [ite_self]
    · rw [Keyed.commandsOf_eq_nil (by simpa [EnvChange.name] using hname), nil_append,
        ih fun hmem => hfree (mem_cons_of_mem _ hmem)]
      simp [Ne.symm hname]

/-- **A diff, name by name**: it leaves its outcome, where the binding is not
read-only. -/
theorem localRun_applyDiff (diff : EnvDiff) (name : Text)
    (hfree : name ∈ diff.names → Free binding) :
    Keyed.localRun EnvChange.effect
      (Keyed.commandsOf EnvChange.name name (applyDiff diff)) binding =
        .ok (written (diff.outcome name) binding) := by
  rw [EnvDiff.names, mem_append] at hfree
  rw [applyDiff, Keyed.commandsOf_append, Keyed.localRun_append,
    localRun_set name diff.set fun hmem => hfree (.inl hmem)]
  refine (localRun_unset name diff.unset fun hmem => free_written (hfree (.inr hmem))).trans ?_
  rw [EnvDiff.outcome]
  split <;> rfl

/-! ## The diff of two snapshots -/

/-- Sorted by name, each name once. -/
def Env.Sorted (env : Env) : Prop := env.Pairwise fun left right => left.1 < right.1

variable {env : Env}

theorem Env.lookup_of_lt (h : ∀ entry ∈ env, name < entry.1) :
    env.lookup name = none := by
  rw [lookup_eq_none_iff]
  intro entry hentry
  simpa using (h entry hentry).ne

theorem lastValue_eq_lookup (h : env.Sorted) (name : Text) :
    lastValue name env = env.lookup name := by
  induction env with
  | nil => rfl
  | cons entry env ih =>
    obtain ⟨habove, hsorted⟩ := pairwise_cons.mp h
    rw [lastValue, ih hsorted, lookup_cons]
    by_cases hname : entry.1 = name
    · subst hname
      rw [Env.lookup_of_lt habove]
      simp
    · have hbeq : (name == entry.1) = false := by simpa using Ne.symm hname
      rw [if_neg hname, Option.or_none, hbeq]

theorem Env.lookup_eq_none : env.lookup name = none ↔ name ∉ env.map (·.1) := by
  rw [lookup_eq_none_iff, mem_map]
  constructor
  · rintro h ⟨entry, hentry, rfl⟩
    simpa using h entry hentry
  · intro h entry hentry
    by_contra heq
    have hname : name = entry.1 := by simpa using heq
    exact h ⟨entry, hentry, hname.symm⟩

theorem lookup_cons_of_ne
    (h : name ≠ entry.1) : List.lookup name (entry :: env) = List.lookup name env := by
  rw [lookup_cons, beq_eq_false_iff_ne.mpr h]

theorem EnvDiff.outcome_unset_cons (diff : EnvDiff) (key name : Text) :
    EnvDiff.outcome { diff with unset := key :: diff.unset } name =
      if name = key then some none else diff.outcome name := by
  rw [outcome, outcome]
  by_cases hname : name = key
  · rw [if_pos (by simp [hname]), if_pos hname]
  · simp [hname]

theorem EnvDiff.outcome_set_cons (diff : EnvDiff) (entry : Text × ShellBytes) (name : Text)
    (hfresh : diff.outcome entry.1 = none) :
    EnvDiff.outcome { diff with set := entry :: diff.set } name =
      if name = entry.1 then some (some entry.2) else diff.outcome name := by
  rw [outcome_eq_none, names, mem_append, not_or, ← lastValue_eq_none] at hfresh
  rw [outcome, outcome, lastValue]
  by_cases hname : name = entry.1
  · subst hname
    simp [hfresh.1, hfresh.2]
  · simp [hname, Ne.symm hname]

/-- **The diff of two snapshots** writes a name exactly when they differ there,
and leaves what the second one has. -/
theorem diffSortedEnv_outcome (before after : Env) (hbefore : before.Sorted)
    (hafter : after.Sorted) (name : Text) :
    (diffSortedEnv before after).outcome name =
      if after.lookup name = before.lookup name then none else some (after.lookup name) := by
  induction before, after using diffSortedEnv.induct generalizing name with
  | case1 after =>
    rw [diffSortedEnv, EnvDiff.outcome, lastValue_eq_lookup hafter]
    cases after.lookup name <;> rfl
  | case2 b before =>
    rw [diffSortedEnv, EnvDiff.outcome, lookup_nil]
    by_cases hname : name ∈ (b :: before).map (·.1)
    · have hlookup := mt Env.lookup_eq_none.mp (not_not_intro hname)
      rw [if_pos hname, if_neg (Ne.symm hlookup)]
    · rw [if_neg hname, Env.lookup_eq_none.mpr hname]
      rfl
  | case3 b before a after hlt ih =>
    obtain ⟨habove, hbefore'⟩ := pairwise_cons.mp hbefore
    rw [diffSortedEnv, if_pos hlt, EnvDiff.outcome_unset_cons, ih hbefore' hafter]
    by_cases hname : name = b.1
    · -- `b` comes before all that is left of the second snapshot
      have hnone : List.lookup b.1 (a :: after) = none := by
        refine Env.lookup_of_lt fun entry hentry => ?_
        rcases mem_cons.mp hentry with rfl | hentry
        · exact hlt
        · exact hlt.trans ((pairwise_cons.mp hafter).1 entry hentry)
      rw [if_pos hname, hname, hnone, lookup_cons_self, if_neg nofun]
    · rw [if_neg hname, lookup_cons_of_ne hname]
  | case4 b before a after hnlt hlt ih =>
    obtain ⟨habove, hafter'⟩ := pairwise_cons.mp hafter
    have hnone : List.lookup a.1 (b :: before) = none := by
      refine Env.lookup_of_lt fun entry hentry => ?_
      rcases mem_cons.mp hentry with rfl | hentry
      · exact hlt
      · exact hlt.trans ((pairwise_cons.mp hbefore).1 entry hentry)
    have hfresh : (diffSortedEnv (b :: before) after).outcome a.1 = none := by
      rw [ih hbefore hafter', Env.lookup_of_lt habove, hnone, if_pos rfl]
    rw [diffSortedEnv, if_neg hnlt, if_pos hlt, EnvDiff.outcome_set_cons _ _ _ hfresh,
      ih hbefore hafter']
    by_cases hname : name = a.1
    · rw [if_pos hname, hname, hnone, lookup_cons_self, if_neg nofun]
    · rw [if_neg hname, lookup_cons_of_ne hname]
  | case5 b before a after hnlt hngt hne ih =>
    obtain ⟨hbefore_above, hbefore'⟩ := pairwise_cons.mp hbefore
    obtain ⟨hafter_above, hafter'⟩ := pairwise_cons.mp hafter
    have hkey : a.1 = b.1 := le_antisymm (not_lt.mp hnlt) (not_lt.mp hngt)
    have hfresh : (diffSortedEnv before after).outcome a.1 = none := by
      rw [ih hbefore' hafter', Env.lookup_of_lt hafter_above, hkey,
        Env.lookup_of_lt hbefore_above, if_pos rfl]
    rw [diffSortedEnv, if_neg hnlt, if_neg hngt]
    dsimp only
    rw [if_pos hne, EnvDiff.outcome_set_cons _ _ _ hfresh, ih hbefore' hafter']
    by_cases hname : name = a.1
    · have hvalues : some a.2 ≠ some b.2 := fun heq => hne (Option.some.inj heq).symm
      rw [if_pos hname, hname, lookup_cons_self, hkey, lookup_cons_self,
        if_neg hvalues]
    · rw [if_neg hname, lookup_cons_of_ne hname, lookup_cons_of_ne (hkey ▸ hname)]
  | case6 b before a after hnlt hngt heq ih =>
    obtain ⟨hbefore_above, hbefore'⟩ := pairwise_cons.mp hbefore
    obtain ⟨hafter_above, hafter'⟩ := pairwise_cons.mp hafter
    have hkey : a.1 = b.1 := le_antisymm (not_lt.mp hnlt) (not_lt.mp hngt)
    rw [diffSortedEnv, if_neg hnlt, if_neg hngt]
    dsimp only
    rw [if_neg heq, ih hbefore' hafter']
    by_cases hname : name = a.1
    · rw [hname, lookup_cons_self, Env.lookup_of_lt hafter_above, hkey,
        lookup_cons_self, Env.lookup_of_lt hbefore_above, not_not.mp heq, if_pos rfl,
        if_pos rfl]
    · rw [lookup_cons_of_ne hname, lookup_cons_of_ne (hkey ▸ hname)]

/-! ## Snapshots are sorted -/

theorem filteredEntry_key
    (h : filteredEntry entry = some kept) : entry.1 = ShellBytes.ofText kept.1 := by
  rw [filteredEntry, Option.bind_eq_some_iff] at h
  obtain ⟨key, hkey, hkept⟩ := h
  split at hkept
  · obtain rfl := Option.some.inj hkept
    exact eq_ofText hkey
  · cases hkept

theorem filteredEnv_sorted
    (h : (entries.filterMap filteredEntry).Pairwise fun left right => left.1 ≠ right.1) :
    (filteredEnvFromSnapshot entries).Sorted := by
  let le := fun left right : Text × ShellBytes => left.1 ≤ right.1
  have hperm := (entries.filterMap filteredEntry).perm_insertionSort le
  have hsorted := (entries.filterMap filteredEntry).pairwise_insertionSort le
  have hdistinct := (hperm.pairwise_iff fun h => Ne.symm h).mpr h
  exact (hsorted.and hdistinct).imp fun h => lt_of_le_of_ne h.1 h.2

/-- Each name stands once. -/
def Snapshot.Distinct (entries : Snapshot) : Prop :=
  entries.Pairwise fun left right => left.1 ≠ right.1

theorem Snapshot.Distinct.filtered {entries : Snapshot} (h : entries.Distinct) :
    (entries.filterMap filteredEntry).Pairwise fun left right => left.1 ≠ right.1 := by
  refine h.filterMap filteredEntry fun entry other hne kept hkept kept' hkept' heq => hne ?_
  rw [filteredEntry_key hkept, filteredEntry_key hkept', heq]

/-! ### The environment of a store -/

theorem isShellNameBytes_of_valid (h : isValidEnvKey key = true) :
    isShellNameBytes (ShellBytes.ofText key) = true := by
  have hname : ∀ byte, (isAsciiAlphabetic byte || byte == 0x5F) = isNameByte byte := by
    intro byte
    rw [isAsciiAlphabetic, isNameByte, Bool.or_comm, Bool.or_assoc]
  rw [isValidEnvKey] at h
  rw [ShellBytes.ofText]
  cases hbytes : Utf8.encode key with
  | nil => simp [hbytes] at h
  | cons first bytes =>
    rw [hbytes] at h
    rw [isShellNameBytes]
    simp only [Bool.and_eq_true, all_eq_true] at h ⊢
    refine ⟨(hname first).symm.trans h.1, fun byte hbyte => ?_⟩
    have hkept := h.2 byte hbyte
    rw [isAsciiAlphanumeric, Bool.or_right_comm, hname] at hkept
    exact hkept

/-- The entries a store has inherited are those that name no shell variable. -/
def Imported (v : Variables) : Prop :=
  ∀ entry ∈ v.inherited_env, isShellNameBytes entry.1 = false

theorem filteredEntry_inherited (h : Imported v)
    (hentry : entry ∈ v.inherited_env) : filteredEntry entry = none := by
  cases hkept : filteredEntry entry with
  | none => rfl
  | some kept =>
    have hkey := filteredEntry_key hkept
    rw [filteredEntry, hkey, asUtf8Str_ofText, Option.bind_some] at hkept
    split at hkept
    · next hvalid =>
        rw [Bool.and_eq_true] at hvalid
        have hname := isShellNameBytes_of_valid hvalid.1
        rw [← hkey, h entry hentry] at hname
        cases hname
    · cases hkept

theorem exportedEnv_distinct (v : Variables) :
    (v.exportedEnvBytes.map fun e => (ShellBytes.ofText e.1, e.2)).Pairwise
      fun left right => left.1 ≠ right.1 := by
  have hkeys : v.vars.entries.Pairwise fun left right => left.1 ≠ right.1 := by
    have h := v.vars.nodupKeys
    rwa [List.NodupKeys, List.keys, List.Nodup, pairwise_map] at h
  rw [pairwise_map, Variables.exportedEnvBytes]
  refine hkeys.filterMap _ fun entry other hne kept hkept kept' hkept' heq => hne ?_
  have hkey : ∀ {entry : Sigma fun _ : Text => Var} {kept : Text × ShellBytes},
      (if entry.2.flags.EXPORT then entry.2.value.map (entry.1, ·) else none) = some kept →
        kept.1 = entry.1 := by
    intro entry kept h
    split at h
    · obtain ⟨value, -, rfl⟩ := Option.map_eq_some_iff.mp h
      rfl
    · cases h
  rw [← hkey hkept, ← hkey hkept']
  exact Utf8.encode_injective heq

/-- The kept names of a store's environment are distinct. -/
theorem env_distinct {v : Variables} (h : Imported v) :
    ((v.envForCommandOs []).filterMap filteredEntry).Pairwise
      fun left right => left.1 ≠ right.1 := by
  rw [Variables.envForCommandOs]
  simp only [map_nil, append_nil, filterMap_append]
  have hinherited : ∀ p, (v.inherited_env.filter p).filterMap filteredEntry = [] := by
    intro p
    rw [filterMap_eq_nil_iff]
    exact fun entry hentry => filteredEntry_inherited h (mem_of_mem_filter hentry)
  rw [hinherited, nil_append]
  exact Snapshot.Distinct.filtered ((exportedEnv_distinct v).filter _)

/-! ### Adding entries to a sorted snapshot -/

theorem mem_assignSorted (h : entry ∈ assignSorted key value env) :
    entry.1 = key ∨ entry ∈ env := by
  induction env with
  | nil =>
    rw [assignSorted, mem_singleton] at h
    exact .inl (by rw [h])
  | cons first env ih =>
    rw [assignSorted] at h
    split_ifs at h
    · rcases mem_cons.mp h with rfl | h
      · exact .inr mem_cons_self
      · exact (ih h).imp_right (mem_cons_of_mem first)
    · rcases mem_cons.mp h with rfl | h
      · exact .inl rfl
      · exact .inr (mem_cons_of_mem first h)
    · rcases mem_cons.mp h with rfl | h
      · exact .inl rfl
      · exact .inr h

theorem assignSorted_sorted (h : env.Sorted) :
    (assignSorted key value env).Sorted := by
  induction env with
  | nil => exact pairwise_singleton _ _
  | cons first env ih =>
    obtain ⟨habove, hsorted⟩ := pairwise_cons.mp h
    rw [assignSorted]
    split_ifs with hlt heq
    · refine pairwise_cons.mpr ⟨fun entry hentry => ?_, ih hsorted⟩
      rcases mem_assignSorted hentry with hkey | hentry
      · rw [hkey]
        exact hlt
      · exact habove entry hentry
    · refine pairwise_cons.mpr ⟨fun entry hentry => ?_, hsorted⟩
      rw [← heq]
      exact habove entry hentry
    · have hkey : key < first.1 := lt_of_le_of_ne (not_lt.mp hlt) (Ne.symm heq)
      refine pairwise_cons.mpr ⟨fun entry hentry => ?_, h⟩
      rcases mem_cons.mp hentry with rfl | hentry
      · exact hkey
      · exact hkey.trans (habove entry hentry)

theorem assignEntries_sorted (entries : List (Text × Text)) (h : env.Sorted) :
    (assignEntries entries env).Sorted := by
  rw [assignEntries]
  induction entries generalizing env with
  | nil => exact h
  | cons entry entries ih => exact ih (assignSorted_sorted h)

end Ish.Denv
