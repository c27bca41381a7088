import Ish.Epsh.Var
import Ish.Lib.Assoc

/-!
# The environment of a child

`Variables::from_environment` imports an environment, the operations on variables change the
store, and `env_for_command_os` merges what is left of the import, the exported variables
and the assignments in front of a command. What the merge is for is a value for each name;
where it is that function is what the theorem below says.
-/

namespace Ish.Epsh

open Ish.Lib List

namespace Variables

/-! ## The import and the operations -/

/-- The variable an imported name is, if it is the name of one. -/
def shellName (bytes : ShellBytes) : Option Text :=
  if isShellNameBytes bytes then asUtf8Str bytes else none

/-- One round of the loop of `from_environment`. -/
def importEntry (v : Variables) (entry : ShellBytes × ShellBytes) : Variables :=
  match shellName entry.1 with
  | some name => v.insert name (Var.new (some entry.2) { EXPORT := true })
  | none => { v with inherited_env := v.inherited_env ++ [entry] }

/-- `Variables::from_environment` -/
def fromEnvironment (entries : List (ShellBytes × ShellBytes)) : Variables :=
  let v := entries.foldl importEntry
    { vars := ∅, inherited_env := [], scopes := [], positional := [],
      arg0 := ShellBytes.ofText "epsh".toList }
  if (v.binding "IFS".toList).isSome then v
  else v.insert "IFS".toList (Var.new (some (ShellBytes.ofText " \t\n".toList)) {})

/-- The operations that change a store. -/
inductive Mutation where
  | Set (name : Text) (value : ShellBytes)
  | Export (name : Text)
  | Unexport (name : Text)
  | Unset (name : Text)
  | Declare (name : Text)

/-- An operation on the store; one that is refused leaves it. -/
def mutate (v : Variables) : Mutation → Variables
  | .Set name value => (v.setBytes name value).toOption.getD v
  | .Export name => v.exportVar name
  | .Unexport name => v.unexport name
  | .Unset name => (v.unset name).toOption.getD v
  | .Declare name => v.declare name

/-- The store after an import and a sequence of operations. -/
def afterMutations (imports : List (ShellBytes × ShellBytes)) (mutations : List Mutation) :
    Variables :=
  mutations.foldl mutate (fromEnvironment imports)

/-! ## What the environment is for -/

/-- The value of an exported variable. -/
def exportedBytes (v : Variables) (name : Text) : Option ShellBytes :=
  (v.binding name).bind fun var => if var.flags.EXPORT then var.value else none

/-- A name that was taken out of the environment at some time. -/
def Removed (mutations : List Mutation) (name : ShellBytes) : Prop :=
  ∃ text, ShellBytes.ofText text = name ∧
    (Mutation.Unset text ∈ mutations ∨ Mutation.Unexport text ∈ mutations)

/-- The name of an assignment or of a variable, as a process sees it. -/
def encoded (entries : List (Text × ShellBytes)) : List (ShellBytes × ShellBytes) :=
  entries.map fun entry => (ShellBytes.ofText entry.1, entry.2)

/-- The last value assigned to a name. -/
def lastAssigned (assigns : List (Text × ShellBytes)) (name : ShellBytes) : Option ShellBytes :=
  (encoded assigns).reverse.lookup name

/-- The value of the exported variable with that name. -/
def exportedAt (v : Variables) (name : ShellBytes) : Option ShellBytes :=
  (asUtf8Str name).bind v.exportedBytes

open Classical in
/-- **What a child is to see at a name**: the last assignment in front of its command, else
the exported variable, else what was imported and never taken out. -/
noncomputable def childValue (imports : List (ShellBytes × ShellBytes))
    (mutations : List Mutation) (assigns : List (Text × ShellBytes)) (name : ShellBytes) :
    Option ShellBytes :=
  (lastAssigned assigns name).or
    (((afterMutations imports mutations).exportedAt name).or
      (if isShellNameBytes name = true ∨ Removed mutations name then none
        else imports.lookup name))

/-- The environment of a child has each name once, with the value it is to have. -/
def IsFunction (imports : List (ShellBytes × ShellBytes)) (mutations : List Mutation)
    (assigns : List (Text × ShellBytes)) : Prop :=
  Distinct ((afterMutations imports mutations).envForCommandOs assigns) ∧
    ∀ name, ((afterMutations imports mutations).envForCommandOs assigns).lookup name =
      childValue imports mutations assigns name

/-- The imported entries that nothing stands in front of. -/
def passedOn (imports : List (ShellBytes × ShellBytes)) (mutations : List Mutation)
    (assigns : List (Text × ShellBytes)) : List (ShellBytes × ShellBytes) :=
  imports.filter fun entry =>
    !isShellNameBytes entry.1 && (lastAssigned assigns entry.1).isNone &&
      ((afterMutations imports mutations).exportedAt entry.1).isNone

/-! ## The store after a history -/

theorem asUtf8Str_isSome_of_name {bytes} (h : isShellNameBytes bytes = true) :
    (asUtf8Str bytes).isSome := by
  have hbyte : ∀ b ∈ bytes, b < 0x80 := by
    have hname (b : UInt8) (hb : isNameByte b = true ∨ (0x30 ≤ b ∧ b ≤ 0x39)) : b < 0x80 := by
      unfold isNameByte at hb
      simp only [Bool.or_eq_true, Bool.and_eq_true, beq_iff_eq, decide_eq_true_eq] at hb
      rcases hb with ((rfl | hb) | hb) | hb
      · decide
      · exact UInt8.lt_of_le_of_lt hb.2 (by decide)
      · exact UInt8.lt_of_le_of_lt hb.2 (by decide)
      · exact UInt8.lt_of_le_of_lt hb.2 (by decide)
    cases bytes with
    | nil => simp
    | cons first rest =>
      unfold isShellNameBytes at h
      simp only [Bool.and_eq_true, all_eq_true, Bool.or_eq_true, decide_eq_true_eq] at h
      intro b hb
      rcases mem_cons.mp hb with rfl | hb
      · exact hname b (Or.inl h.1)
      · exact hname b (h.2 b hb)
  unfold asUtf8Str
  cases hread : fromUtf8 bytes with
  | ok text => rfl
  | error n =>
    obtain ⟨text, b, rest, rfl, hb, -⟩ := fromUtf8_eq_error hread
    have hlt := hbyte b (by simp)
    rw [UInt8.lt_iff_toNat_lt] at hlt
    rw [UInt8.le_iff_toNat_le] at hb
    omega

theorem shellName_eq_none {bytes} :
    shellName bytes = none ↔ isShellNameBytes bytes = false := by
  unfold shellName
  cases hname : isShellNameBytes bytes with
  | false => simp
  | true =>
    obtain ⟨text, htext⟩ := Option.isSome_iff_exists.mp (asUtf8Str_isSome_of_name hname)
    simp [htext]

theorem inherited_importEntry (v : Variables) (entry : ShellBytes × ShellBytes) :
    (v.importEntry entry).inherited_env =
      v.inherited_env ++ [entry].filter fun entry => !isShellNameBytes entry.1 := by
  unfold importEntry
  cases hname : shellName entry.1 with
  | none => simp [shellName_eq_none.mp hname]
  | some name =>
    have hshell : isShellNameBytes entry.1 = true := by
      by_contra hfalse
      rw [Bool.not_eq_true, ← shellName_eq_none, hname] at hfalse
      cases hfalse
    simp [hshell, insert]

theorem inherited_foldl (entries : List (ShellBytes × ShellBytes)) (v : Variables) :
    (entries.foldl importEntry v).inherited_env =
      v.inherited_env ++ entries.filter fun entry => !isShellNameBytes entry.1 := by
  induction entries generalizing v with
  | nil => simp
  | cons entry entries ih =>
    rw [foldl_cons, ih, inherited_importEntry, append_assoc, ← List.filter_append,
      singleton_append]

/-- What is kept of an import beside the variables. -/
theorem inherited_fromEnvironment (entries : List (ShellBytes × ShellBytes)) :
    (fromEnvironment entries).inherited_env =
      entries.filter fun entry => !isShellNameBytes entry.1 := by
  have hfold := inherited_foldl entries
    { vars := ∅, inherited_env := [], scopes := [], positional := [],
      arg0 := ShellBytes.ofText "epsh".toList }
  rw [nil_append] at hfold
  unfold fromEnvironment
  dsimp only
  split
  · exact hfold
  · exact hfold

theorem inherited_mutate (v : Variables) (mutation : Mutation) :
    (v.mutate mutation).inherited_env = v.inherited_env := by
  cases mutation with
  | Set name value =>
    unfold mutate setBytes
    dsimp only
    split <;> rfl
  | Export name => rfl
  | Unexport name =>
    unfold mutate unexport
    dsimp only
    split <;> rfl
  | Unset name =>
    unfold mutate unset
    dsimp only
    split <;> rfl
  | Declare name => rfl

theorem inherited_mutations (mutations : List Mutation) (v : Variables) :
    (mutations.foldl mutate v).inherited_env = v.inherited_env := by
  induction mutations generalizing v with
  | nil => rfl
  | cons mutation mutations ih => rw [foldl_cons, ih, inherited_mutate]

theorem inherited_afterMutations (imports : List (ShellBytes × ShellBytes))
    (mutations : List Mutation) :
    (afterMutations imports mutations).inherited_env =
      imports.filter fun entry => !isShellNameBytes entry.1 := by
  rw [afterMutations, inherited_mutations, inherited_fromEnvironment]

/-! ## The exported variables -/

theorem mem_exportedEnvBytes {v : Variables} {name value} :
    (name, value) ∈ v.exportedEnvBytes ↔ v.exportedBytes name = some value := by
  unfold exportedEnvBytes exportedBytes binding
  rw [mem_filterMap, Option.bind_eq_some_iff]
  constructor
  · rintro ⟨⟨key, var⟩, hmem, hvalue⟩
    split at hvalue
    · rename_i hexport
      obtain ⟨bytes, hbytes, heq⟩ := Option.map_eq_some_iff.mp hvalue
      obtain ⟨rfl, rfl⟩ := Prod.mk.inj heq
      exact ⟨var, AList.mem_lookup_iff.mpr hmem, by rw [if_pos hexport, hbytes]⟩
    · cases hvalue
  · rintro ⟨var, hlookup, hvalue⟩
    refine ⟨⟨name, var⟩, AList.mem_lookup_iff.mp hlookup, ?_⟩
    split at hvalue
    · rename_i hexport
      rw [if_pos hexport, hvalue]
      rfl
    · cases hvalue

theorem distinct_encoded {entries} :
    Distinct (encoded entries) ↔ Distinct entries := by
  unfold Distinct encoded
  rw [map_map, show Prod.fst ∘ (fun entry : Text × ShellBytes =>
    (ShellBytes.ofText entry.1, entry.2)) = ShellBytes.ofText ∘ Prod.fst from rfl, ← map_map]
  exact nodup_map_iff fun _ _ heq => Utf8.encode_injective heq

theorem distinct_exportedEnvBytes (v : Variables) : Distinct v.exportedEnvBytes := by
  unfold Distinct exportedEnvBytes
  have hkeys : (v.vars.entries.map Sigma.fst).Nodup := v.vars.nodupKeys
  refine hkeys.sublist ?_
  induction v.vars.entries with
  | nil => exact List.Sublist.refl _
  | cons entry entries ih =>
    rw [filterMap_cons, map_cons]
    split
    · exact ih.cons _
    · rename_i kept hkept
      split at hkept
      · obtain ⟨value, -, rfl⟩ := Option.map_eq_some_iff.mp hkept
        exact ih.cons_cons _
      · cases hkept

theorem lookup_encoded_exported (v : Variables) (name : ShellBytes) :
    (encoded v.exportedEnvBytes).lookup name = v.exportedAt name := by
  ext value
  rw [(distinct_encoded.mpr v.distinct_exportedEnvBytes).lookup_eq_some]
  unfold encoded exportedAt
  rw [mem_map, Option.bind_eq_some_iff]
  constructor
  · rintro ⟨⟨text, bytes⟩, hmem, heq⟩
    obtain ⟨rfl, rfl⟩ := Prod.mk.inj heq
    exact ⟨text, asUtf8Str_ofText text, mem_exportedEnvBytes.mp hmem⟩
  · rintro ⟨text, htext, hvalue⟩
    exact ⟨(text, value), mem_exportedEnvBytes.mpr hvalue, by rw [eq_ofText htext]⟩

/-! ## The merge -/

variable {imports : List (ShellBytes × ShellBytes)} {mutations : List Mutation}
  {assigns : List (Text × ShellBytes)}

theorem lastAssigned_eq_none {name} :
    lastAssigned assigns name = none ↔
      (assigns.map fun assign => ShellBytes.ofText assign.1).contains name = false := by
  unfold lastAssigned encoded
  rw [lookup_eq_none_iff, ← Bool.not_eq_true, contains_iff_mem, mem_map]
  simp only [mem_reverse, mem_map, bne_iff_ne]
  constructor
  · rintro h ⟨assign, hassign, rfl⟩
    exact h _ ⟨assign, hassign, rfl⟩ rfl
  · rintro h _ ⟨assign, hassign, rfl⟩ rfl
    exact h ⟨assign, hassign, rfl⟩

theorem exportedAt_eq_none {v : Variables} {name} :
    v.exportedAt name = none ↔
      ((encoded v.exportedEnvBytes).map (·.1)).contains name = false := by
  rw [← lookup_encoded_exported, lookup_eq_none_iff, ← Bool.not_eq_true,
    contains_iff_mem, mem_map]
  constructor
  · rintro h ⟨entry, hentry, rfl⟩
    exact (bne_iff_ne.mp (h entry hentry)) rfl
  · intro h entry hentry
    rw [bne_iff_ne]
    rintro rfl
    exact h ⟨entry, hentry, rfl⟩

/-- The exported variables no assignment stands in front of. -/
def exportedOn (v : Variables) (assigns : List (Text × ShellBytes)) :
    List (ShellBytes × ShellBytes) :=
  (encoded v.exportedEnvBytes).filter fun entry => (lastAssigned assigns entry.1).isNone

/-- **The merge**: what is passed on, what is exported, what is assigned. -/
theorem envForCommandOs_eq :
    (afterMutations imports mutations).envForCommandOs assigns =
      passedOn imports mutations assigns ++
        ((afterMutations imports mutations).exportedOn assigns ++ encoded assigns) := by
  have hassigned (name : ShellBytes) :
      (assigns.map fun assign => ShellBytes.ofText assign.1).contains name =
        !(lastAssigned assigns name).isNone := by
    cases hlast : lastAssigned assigns name with
    | none => simpa using lastAssigned_eq_none.mp hlast
    | some value =>
      by_contra hfalse
      have hnone := lastAssigned_eq_none.mpr (by simpa using hfalse)
      rw [hlast] at hnone
      cases hnone
  have hexported (name : ShellBytes) :
      ((encoded (afterMutations imports mutations).exportedEnvBytes).map (·.1)).contains name =
        !((afterMutations imports mutations).exportedAt name).isNone := by
    cases hat : (afterMutations imports mutations).exportedAt name with
    | none => simpa using exportedAt_eq_none.mp hat
    | some value =>
      by_contra hfalse
      have hnone := exportedAt_eq_none.mpr (by simpa using hfalse)
      rw [hat] at hnone
      cases hnone
  unfold envForCommandOs passedOn exportedOn
  dsimp only
  rw [inherited_afterMutations, filter_filter, append_assoc]
  congr 1
  · refine filter_congr fun entry _ => ?_
    rw [contains_append]
    unfold encoded at hexported
    rw [hassigned, hexported]
    cases isShellNameBytes entry.1 <;>
      cases (lastAssigned assigns entry.1).isNone <;>
        cases ((afterMutations imports mutations).exportedAt entry.1).isNone <;> rfl
  · congr 1
    refine filter_congr fun entry _ => ?_
    rw [hassigned, Bool.not_not]

theorem lookup_exportedOn (v : Variables) (name : ShellBytes) :
    (v.exportedOn assigns).lookup name =
      if (lastAssigned assigns name).isNone then v.exportedAt name else none := by
  unfold exportedOn
  rw [lookup_filter_key fun name => (lastAssigned assigns name).isNone, lookup_encoded_exported]

theorem lookup_passedOn (name : ShellBytes) :
    (passedOn imports mutations assigns).lookup name =
      if !isShellNameBytes name && (lastAssigned assigns name).isNone &&
          ((afterMutations imports mutations).exportedAt name).isNone then
        imports.lookup name
      else none :=
  lookup_filter_key (fun name => !isShellNameBytes name && (lastAssigned assigns name).isNone &&
    ((afterMutations imports mutations).exportedAt name).isNone) imports name

theorem distinct_envForCommandOs :
    Distinct ((afterMutations imports mutations).envForCommandOs assigns) ↔
      Distinct (passedOn imports mutations assigns) ∧ Distinct assigns := by
  rw [envForCommandOs_eq, Distinct.append, Distinct.append, distinct_encoded]
  constructor
  · rintro ⟨hpassed, ⟨-, hassigns, -⟩, -⟩
    exact ⟨hpassed, hassigns⟩
  · rintro ⟨hpassed, hassigns⟩
    have hexported : Distinct ((afterMutations imports mutations).exportedOn assigns) :=
      (distinct_encoded.mpr (distinct_exportedEnvBytes _)).filter _
    have hassigned {entry : ShellBytes × ShellBytes} (hentry : entry ∈ encoded assigns) :
        lastAssigned assigns entry.1 ≠ none := by
      intro hnone
      rw [lastAssigned, lookup_eq_none_iff] at hnone
      have hne := hnone entry (mem_reverse.mpr hentry)
      rw [bne_self_eq_false] at hne
      cases hne
    refine ⟨hpassed, ⟨hexported, hassigns, ?_⟩, ?_⟩
    · intro a ha b hb heq
      have hnone := (mem_filter.mp ha).2
      rw [Option.isNone_iff_eq_none, heq] at hnone
      exact hassigned hb hnone
    · intro a ha b hb heq
      obtain ⟨-, hpass⟩ := mem_filter.mp ha
      simp only [Bool.and_eq_true, Option.isNone_iff_eq_none] at hpass
      rw [heq] at hpass
      rcases mem_append.mp hb with hb | hb
      · have hsome := lookup_isSome (mem_filter.mp hb).1
        rw [lookup_encoded_exported, hpass.2] at hsome
        cases hsome
      · exact hassigned hb hpass.1.2

theorem lookup_envForCommandOs (hassigns : Distinct assigns) (name : ShellBytes) :
    ((afterMutations imports mutations).envForCommandOs assigns).lookup name =
      (lastAssigned assigns name).or
        (((afterMutations imports mutations).exportedAt name).or
          (if isShellNameBytes name = true then none else imports.lookup name)) := by
  have hlast : (encoded assigns).lookup name = lastAssigned assigns name :=
    (distinct_encoded.mpr hassigns).lookup_reverse.symm
  rw [envForCommandOs_eq, lookup_append, lookup_append, hlast, lookup_exportedOn,
    lookup_passedOn]
  cases lastAssigned assigns name with
  | some value => simp
  | none =>
    cases (afterMutations imports mutations).exportedAt name with
    | some value => simp
    | none => cases isShellNameBytes name <;> simp

/-- **When the environment of a child is the function it is to be**: no name is assigned twice
in front of the command, no name that is passed on was imported twice, and none was taken
out. -/
theorem isFunction_iff (imports : List (ShellBytes × ShellBytes)) (mutations : List Mutation)
    (assigns : List (Text × ShellBytes)) :
    IsFunction imports mutations assigns ↔
      Distinct assigns ∧ Distinct (passedOn imports mutations assigns) ∧
        ∀ entry ∈ passedOn imports mutations assigns, ¬ Removed mutations entry.1 := by
  unfold IsFunction
  rw [distinct_envForCommandOs]
  constructor
  · rintro ⟨⟨hpassed, hassigns⟩, hvalue⟩
    refine ⟨hassigns, hpassed, ?_⟩
    intro entry hentry hremoved
    -- the entry is in the environment, and the name is to have no value
    obtain ⟨himported, hpass⟩ := mem_filter.mp hentry
    simp only [Bool.and_eq_true, Option.isNone_iff_eq_none, Bool.not_eq_true'] at hpass
    obtain ⟨⟨hname, hlast⟩, hexported⟩ := hpass
    have hat := hvalue entry.1
    rw [lookup_envForCommandOs hassigns, childValue, hlast, hexported, Option.none_or,
      Option.none_or, Option.none_or, Option.none_or, if_neg (by simp [hname]),
      if_pos (Or.inr hremoved)] at hat
    have hsome := lookup_isSome himported
    rw [hat] at hsome
    cases hsome
  · rintro ⟨hassigns, hpassed, hkept⟩
    refine ⟨⟨hpassed, hassigns⟩, fun name => ?_⟩
    rw [lookup_envForCommandOs hassigns, childValue]
    cases hlast : lastAssigned assigns name with
    | some value => rfl
    | none =>
      cases hexported : (afterMutations imports mutations).exportedAt name with
      | some value => rfl
      | none =>
        rw [Option.none_or, Option.none_or, Option.none_or, Option.none_or]
        by_cases hname : isShellNameBytes name = true
        · rw [if_pos hname, if_pos (Or.inl hname)]
        · rw [if_neg hname]
          by_cases hremoved : Removed mutations name
          · rw [if_pos (Or.inr hremoved)]
            refine lookup_eq_none_of_ne fun entry hentry heq => ?_
            refine hkept entry (mem_filter.mpr ⟨hentry, ?_⟩) (heq.symm ▸ hremoved)
            rw [heq, hlast, hexported]
            simpa using hname
          · rw [if_neg (by tauto)]

/-- `A=1 A=2 cmd` gives the child two entries `A`; two imported entries `1=` stay two; and
after `unset 1` the imported entry `1=x` is back. -/
theorem child_sees_names_twice :
    ¬ IsFunction [] [] [(['A'], [0x31]), (['A'], [0x32])] ∧
      ¬ IsFunction [([0x31], [0x78]), ([0x31], [0x79])] [] [] ∧
      ¬ IsFunction [([0x31], [0x78])] [.Unset ['1']] [] := by
  refine ⟨?_, ?_, ?_⟩
  · rintro ⟨hdistinct, -⟩
    exact absurd (distinct_envForCommandOs.mp hdistinct).2 (by unfold Distinct; decide)
  · rintro ⟨hdistinct, -⟩
    revert hdistinct
    unfold Distinct
    decide
  · rintro ⟨-, hvalue⟩
    have hat := hvalue [0x31]
    have hremoved : Removed [.Unset ['1']] [0x31] :=
      ⟨['1'], by decide, Or.inl mem_cons_self⟩
    rw [childValue, if_pos (Or.inr hremoved)] at hat
    revert hat
    decide

end Variables

end Ish.Epsh
