import Ish.Epsh.Var
import Ish.Lib.Keyed

/-!
# Environment changes

The model of `EnvChange`, `apply_changes`, `capture_prev`, `apply_restore` and
`apply_diff` of `src/denv.rs`. `apply_changes` works on a clone that its caller
drops on an error, so a failure returns no store.

A change touches one name. `EnvChange.effect` says what it does to the binding
of that name, and the changes are then commands of `Ish.Lib.Keyed`.
-/

namespace Ish.Denv

open Ish.Epsh Ish.Lib List Keyed

inductive EnvChange where
  | Set (name : Text) (value : ShellBytes)
  | Unset (name : Text)
  | Unexport (name : Text)
  | Declare (name : Text) (exported : Bool)
deriving DecidableEq

inductive PrevVar where
  | Restore (name : Text) (value : ShellBytes) (exported : Bool)
  | Unassigned (name : Text) (exported : Bool)
  | Unset (name : Text)
deriving DecidableEq

structure EnvDiff where
  set : List (Text × ShellBytes)
  unset : List Text
deriving DecidableEq

def applyChange (vars : Variables) : EnvChange → Except Text Variables
  | .Set name value => do
    let vars ← vars.setBytes name value
    return vars.exportVar name
  | .Unset name => vars.unset name
  | .Unexport name => return vars.unexport name
  | .Declare name exported =>
    let vars := vars.declare name
    return if exported then vars.exportVar name else vars

def applyChanges (vars : Variables) : List EnvChange → Except Text Variables
  | [] => return vars
  | change :: changes => do
    let vars ← applyChange vars change
    applyChanges vars changes

/-- The names of a diff in the order the source chains them. -/
def EnvDiff.names (diff : EnvDiff) : List Text := diff.set.map (·.1) ++ diff.unset

/-- What `capture_prev` records for a name with this binding. -/
def captureVar (name : Text) : Option Var → PrevVar
  | some binding =>
    match binding.value with
    | some value => .Restore name value binding.flags.EXPORT
    | none => .Unassigned name binding.flags.EXPORT
  | none => .Unset name

def capturePrev (diff : EnvDiff) (vars : Variables) : List PrevVar :=
  diff.names.map fun name => captureVar name (vars.binding name)

/-- The changes that `apply_restore` pushes for one entry. -/
def restoreItem : PrevVar → List EnvChange
  | .Restore key value exported =>
    .Set key value :: if exported then [] else [.Unexport key]
  | .Unset key => [.Unset key]
  | .Unassigned key exported => [.Unset key, .Declare key exported]

def applyRestore (prev : List PrevVar) : List EnvChange := prev.flatMap restoreItem

def applyDiff (diff : EnvDiff) : List EnvChange :=
  diff.set.map (fun (key, value) => .Set key value) ++ diff.unset.map .Unset

/-! ## The effect of one change on the binding it touches -/

def EnvChange.name : EnvChange → Text
  | Set name _ | Unset name | Unexport name | Declare name _ => name

/-- A binding that is not read-only; an absent one is free. -/
def Free (binding : Option Var) : Prop :=
  ∀ var, binding = some var → var.flags.READONLY = false

def setExport (exported : Bool) (var : Var) : Var :=
  { var with flags := { var.flags with EXPORT := exported } }

def EnvChange.effect : EnvChange → Option Var → Except Text (Option Var)
  | Set name value, binding =>
    if binding.any (·.flags.READONLY) then .error (Variables.readonlyError name)
    else .ok (some (setExport true
      (Var.new (some value) (binding.getD (Var.new none {})).flags)))
  | Unset name, binding =>
    if binding.any (·.flags.READONLY) then .error (Variables.readonlyError name)
    else .ok none
  | Unexport _, binding => .ok (binding.map (setExport false))
  | Declare _ exported, binding =>
    let var := binding.getD (Var.new none {})
    .ok (some (if exported then setExport true var else var))

/-- **A change touches its own binding**, as `effect` says, and nothing else of
the store. -/
theorem applyChange_stepAt (v : Variables) (c : EnvChange) :
    (applyChange v c).map (fun w => (w.binding, w.rest)) =
      (stepAt EnvChange.name EnvChange.effect c v.binding).map
        (·, v.rest) := by
  cases c with
  | Set name value =>
    cases hro : (v.binding name).any (·.flags.READONLY) with
    | true =>
      simp [applyChange, Variables.setBytes, Variables.isReadonly, stepAt,
        EnvChange.effect, EnvChange.name, hro, bind, Except.bind, Except.map]
    | false =>
      simp [applyChange, Variables.setBytes, Variables.isReadonly, stepAt,
        EnvChange.effect, EnvChange.name, hro, bind, Except.bind, pure,
        Except.pure, Except.map, Variables.exportVar, Variables.entry, setExport,
        Var.new]
  | Unset name =>
    cases hro : (v.binding name).any (·.flags.READONLY) with
    | true =>
      simp [applyChange, Variables.unset, Variables.isReadonly, stepAt,
        EnvChange.effect, EnvChange.name, hro, Except.map]
    | false =>
      simp [applyChange, Variables.unset, Variables.isReadonly, stepAt,
        EnvChange.effect, EnvChange.name, hro, Except.map, Variables.binding_erase,
        Variables.rest]
  | Unexport name =>
    simp only [applyChange, Variables.unexport, stepAt, EnvChange.effect,
      EnvChange.name]
    cases h : v.binding name with
    | none =>
      have hself : Function.update v.binding name none = v.binding := by
        rw [← h, Function.update_eq_self]
      simp [pure, Except.pure, Except.map, hself]
    | some var => simp [pure, Except.pure, Except.map, setExport]
  | Declare name exported =>
    simp only [applyChange, Variables.declare, stepAt, EnvChange.effect,
      EnvChange.name]
    cases exported with
    | false => simp [pure, Except.pure, Except.map, Variables.entry]
    | true =>
      simp [pure, Except.pure, Except.map, Variables.exportVar, Variables.entry,
        setExport]

theorem applyChanges_run (v : Variables) (cs : List EnvChange) :
    (applyChanges v cs).map (fun w => (w.binding, w.rest)) =
      (run EnvChange.name EnvChange.effect cs v.binding).map (·, v.rest) := by
  induction cs generalizing v with
  | nil => rfl
  | cons c cs ih =>
    have hstep := applyChange_stepAt v c
    rw [applyChanges, run]
    cases hv : applyChange v c with
    | error e =>
      cases hs : stepAt EnvChange.name EnvChange.effect c v.binding with
      | error f =>
        rw [hv, hs] at hstep
        simpa [Except.map, bind, Except.bind] using hstep
      | ok s => simp [hv, hs, Except.map] at hstep
    | ok w =>
      cases hs : stepAt EnvChange.name EnvChange.effect c v.binding with
      | error f => simp [hv, hs, Except.map] at hstep
      | ok s =>
        rw [hv, hs] at hstep
        simp only [Except.map, Except.ok.injEq, Prod.mk.injEq] at hstep
        obtain ⟨hbinding, hrest⟩ := hstep
        have ihw := ih w
        rw [hbinding, hrest] at ihw
        exact ihw

theorem applyChanges_ok {v cs t}
    (h : ∀ name, localRun EnvChange.effect
      (commandsOf EnvChange.name name cs) (v.binding name) = .ok (t name)) :
    ∃ w, applyChanges v cs = .ok w ∧ w.binding = t ∧ w.rest = v.rest := by
  have hrun := applyChanges_run v cs
  rw [run_ok h] at hrun
  cases hw : applyChanges v cs with
  | error e => simp [hw, Except.map] at hrun
  | ok w =>
    simp only [hw, Except.map, Except.ok.injEq, Prod.mk.injEq] at hrun
    exact ⟨w, rfl, hrun.1, hrun.2⟩

theorem applyChanges_local {v w cs} (h : applyChanges v cs = .ok w) :
    w.rest = v.rest ∧ ∀ name, localRun EnvChange.effect
      (commandsOf EnvChange.name name cs) (v.binding name) = .ok (w.binding name) := by
  have hrun := applyChanges_run v cs
  rw [h] at hrun
  cases hk : run EnvChange.name EnvChange.effect cs v.binding with
  | error e => simp [hk, Except.map] at hrun
  | ok t =>
    simp only [hk, Except.map, Except.ok.injEq, Prod.mk.injEq] at hrun
    obtain ⟨rfl, hrest⟩ := hrun
    exact ⟨hrest, run_eq_ok hk⟩

/-! ## Restoring one name -/

theorem not_readonly_of_free {b} (hb : Free b) : b.any (·.flags.READONLY) = false := by
  cases b with
  | none => rfl
  | some var => exact hb var rfl

theorem readonly_getD_of_free {b} (hb : Free b) :
    (b.getD (Var.new none {})).flags.READONLY = false := by
  cases b with
  | none => rfl
  | some var => exact hb var rfl

/-- A change of a binding that is not read-only succeeds, and makes none
read-only. -/
theorem effect_free (c : EnvChange) {b} (hb : Free b) :
    ∃ w, c.effect b = .ok w ∧ Free w := by
  have hro := not_readonly_of_free hb
  have hget := readonly_getD_of_free hb
  cases c with
  | Set name value =>
    refine ⟨_, by simp only [EnvChange.effect, hro]; rfl, ?_⟩
    rintro var ⟨rfl⟩
    exact hget
  | Unset name =>
    refine ⟨none, by simp only [EnvChange.effect, hro]; rfl, ?_⟩
    rintro var ⟨⟩
  | Unexport name =>
    refine ⟨_, rfl, ?_⟩
    intro var hvar
    rw [Option.map_eq_some_iff] at hvar
    obtain ⟨old, hold, rfl⟩ := hvar
    exact hb old hold
  | Declare name exported =>
    refine ⟨_, rfl, ?_⟩
    rintro var ⟨rfl⟩
    cases exported <;> exact hget

theorem var_eq_of_free {v w : Var} (hv : v.flags.READONLY = false)
    (hw : w.flags.READONLY = false) (hvalue : w.value = v.value)
    (hexport : w.flags.EXPORT = v.flags.EXPORT) : w = v := by
  have hflags : w.flags = v.flags := by
    cases hf : w.flags
    cases hg : v.flags
    simp_all
  rw [Var.eq_new w, Var.eq_new v, hvalue, hflags]

/-- **One entry restores one name**: applied to any binding that is not
read-only, it leaves the binding it was captured from. -/
theorem localRun_restoreItem (name : Text) {b c : Option Var} (hb : Free b) (hc : Free c) :
    localRun EnvChange.effect (restoreItem (captureVar name b)) c = .ok b := by
  have hro := not_readonly_of_free hc
  have hget := readonly_getD_of_free hc
  cases b with
  | none => simp [captureVar, restoreItem, localRun, EnvChange.effect, hro, Except.bind]
  | some var =>
    have hvar := hb var rfl
    cases hvalue : var.value with
    | some bytes =>
      have hset : (EnvChange.Set name bytes).effect c = .ok (some (setExport true
          (Var.new (some bytes) (c.getD (Var.new none {})).flags))) := by
        simp only [EnvChange.effect, hro]
        rfl
      cases hexport : var.flags.EXPORT with
      | true =>
        have hitem : restoreItem (captureVar name (some var)) =
            [.Set name bytes] := by
          simp [captureVar, hvalue, restoreItem, hexport]
        rw [hitem, localRun, hset]
        exact congrArg (fun v => Except.ok (some v))
          (var_eq_of_free hvar hget hvalue.symm hexport.symm)
      | false =>
        have hitem : restoreItem (captureVar name (some var)) =
            [.Set name bytes, .Unexport name] := by
          simp [captureVar, hvalue, restoreItem, hexport]
        rw [hitem, localRun, hset]
        exact congrArg (fun v => Except.ok (some v))
          (var_eq_of_free (w := setExport false _) hvar hget hvalue.symm
            hexport.symm)
    | none =>
      have hunset : (EnvChange.Unset name).effect c = .ok none := by
        simp only [EnvChange.effect, hro]
        rfl
      have hitem : restoreItem (captureVar name (some var)) =
          [.Unset name, .Declare name var.flags.EXPORT] := by
        simp [captureVar, hvalue, restoreItem]
      rw [hitem, localRun, hunset]
      refine congrArg (fun v => Except.ok (some v))
        (var_eq_of_free hvar ?_ ?_ ?_)
      · cases var.flags.EXPORT <;> rfl
      · rw [hvalue]
        cases var.flags.EXPORT <;> rfl
      · cases var.flags.EXPORT <;> rfl

theorem name_of_mem_restoreItem {name b c}
    (h : c ∈ restoreItem (captureVar name b)) : c.name = name := by
  cases b with
  | none =>
    simp only [captureVar, restoreItem, mem_singleton] at h
    rw [h, EnvChange.name]
  | some var =>
    cases hvalue : var.value with
    | some bytes =>
      cases hexport : var.flags.EXPORT <;>
        simp only [captureVar, hvalue, restoreItem, hexport] at h <;> simp at h
      · rcases h with rfl | rfl <;> rfl
      · rw [h, EnvChange.name]
    | none =>
      simp only [captureVar, hvalue, restoreItem] at h
      simp at h
      rcases h with rfl | rfl <;> rfl

theorem localRun_applyRestore (s : Text → Option Var) (k : Text)
    (names : List Text) (hs : k ∈ names → Free (s k)) {c} (hc : k ∈ names → Free c) :
    localRun EnvChange.effect (commandsOf EnvChange.name k
      (applyRestore (names.map fun name => captureVar name (s name)))) c =
      .ok (if k ∈ names then s k else c) := by
  induction names generalizing c with
  | nil => simp [applyRestore, localRun]
  | cons name names ih =>
    rw [map_cons, applyRestore, flatMap_cons, commandsOf_append,
      localRun_append]
    by_cases hk : k = name
    · subst hk
      have hfree : Free (s k) := hs (by simp)
      rw [commandsOf_eq_self fun c hc => name_of_mem_restoreItem hc,
        localRun_restoreItem k hfree (hc (by simp)), if_pos (by simp)]
      have hrest := ih (fun _ => hfree) (fun _ => hfree)
      rw [ite_self] at hrest
      exact hrest
    · have hnone : commandsOf EnvChange.name k
          (restoreItem (captureVar name (s name))) = [] := by
        refine commandsOf_eq_nil fun c hc => ?_
        rw [name_of_mem_restoreItem hc]
        exact Ne.symm hk
      have hmem : k ∈ name :: names ↔ k ∈ names := by simp [hk]
      rw [hnone]
      simp only [hmem] at hs hc ⊢
      exact ih hs hc

/-! ## Applying a diff -/

theorem name_mem_of_mem_applyDiff {diff c}
    (h : c ∈ applyDiff diff) : c.name ∈ diff.names := by
  rw [applyDiff, mem_append] at h
  rw [EnvDiff.names, mem_append]
  rcases h with h | h
  · obtain ⟨entry, hentry, rfl⟩ := mem_map.mp h
    exact .inl (mem_map.mpr ⟨entry, hentry, rfl⟩)
  · obtain ⟨name, hname, rfl⟩ := mem_map.mp h
    exact .inr hname

theorem applyDiff_ok (v : Variables) (diff : EnvDiff)
    (hfree : ∀ name ∈ diff.names, Free (v.binding name)) :
    ∃ w, applyChanges v (applyDiff diff) = .ok w ∧
      (∀ name ∈ diff.names, Free (w.binding name)) ∧
      (∀ name ∉ diff.names, w.binding name = v.binding name) ∧ w.rest = v.rest := by
  have hlocal : ∀ name, ∃ t, localRun EnvChange.effect
      (commandsOf EnvChange.name name (applyDiff diff)) (v.binding name) = .ok t ∧
      (name ∈ diff.names → Free t) ∧ (name ∉ diff.names → t = v.binding name) := by
    intro name
    by_cases hname : name ∈ diff.names
    · obtain ⟨t, ht, htfree⟩ := localRun_inv (P := Free)
        (fun c b hb => effect_free c hb) (commandsOf EnvChange.name name
          (applyDiff diff)) (hfree name hname)
      exact ⟨t, ht, fun _ => htfree, fun hn => absurd hname hn⟩
    · have hnone : commandsOf EnvChange.name name (applyDiff diff) = [] := by
        refine commandsOf_eq_nil fun c hc heq => hname ?_
        rw [← heq]
        exact name_mem_of_mem_applyDiff hc
      exact ⟨v.binding name, by rw [hnone]; rfl, fun hn => absurd hn hname, fun _ => rfl⟩
  choose t ht htfree htsame using hlocal
  obtain ⟨w, hw, hbinding, hrest⟩ := applyChanges_ok ht
  subst hbinding
  exact ⟨w, hw, htfree, htsame, hrest⟩

/-- **Leaving undoes entering**: after a diff, the captured record restores the
binding of every name. -/
theorem applyRestore_applyDiff (v : Variables) (diff : EnvDiff)
    (hfree : ∀ name ∈ diff.names, Free (v.binding name)) :
    ∃ v1 v2, applyChanges v (applyDiff diff) = .ok v1 ∧
      applyChanges v1 (applyRestore (capturePrev diff v)) = .ok v2 ∧
      v2.binding = v.binding ∧ v2.rest = v.rest := by
  obtain ⟨v1, hv1, hfree1, hsame, hrest1⟩ := applyDiff_ok v diff hfree
  have hlocal : ∀ name, localRun EnvChange.effect (commandsOf
      EnvChange.name name (applyRestore (capturePrev diff v))) (v1.binding name) =
      .ok (v.binding name) := by
    intro name
    rw [capturePrev, localRun_applyRestore v.binding name diff.names (hfree name)
      (hfree1 name)]
    by_cases hname : name ∈ diff.names
    · rw [if_pos hname]
    · rw [if_neg hname, hsame name hname]
  obtain ⟨v2, hv2, hbinding, hrest2⟩ := applyChanges_ok hlocal
  exact ⟨v1, v2, hv1, hv2, hbinding, hrest2.trans hrest1⟩

end Ish.Denv
