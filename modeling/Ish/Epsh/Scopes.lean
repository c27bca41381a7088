import Ish.Epsh.Var

/-!
# Scopes — what a popped scope restores

Runs of the operations of `Variables` in `crates/epsh/src/var.rs`, in which scopes are
pushed and popped in balance. A scope puts back every binding as it was when it was first
made local in it.
-/

namespace Ish.Epsh

open List Function

/-! ## Operations -/

inductive VarOp where
  | pushScope
  | popScope
  | makeLocal (name : Text)
  | setBytes (name : Text) (value : ShellBytes)
  | setInt (name : Text) (value : Int64)
  | unset (name : Text)
  | exportVar (name : Text)
  | unexport (name : Text)
  | declare (name : Text)
  | setReadonly (name : Text)

namespace VarOp

def isScope : VarOp → Bool
  | pushScope | popScope => true
  | _ => false

/-- The variables after an operation; one that fails leaves them as they are. -/
def step (v : Variables) : VarOp → Variables
  | pushScope => v.pushScope
  | popScope => v.popScope
  | makeLocal name => v.makeLocal name
  | setBytes name value => (v.setBytes name value).toOption.getD v
  | setInt name value => (v.setInt name value).toOption.getD v
  | unset name => (v.unset name).toOption.getD v
  | exportVar name => v.exportVar name
  | unexport name => v.unexport name
  | declare name => v.declare name
  | setReadonly name => v.setReadonly name

end VarOp

def runVars (ops : List VarOp) (v : Variables) : Variables := ops.foldl VarOp.step v

/-- Every scope that is pushed is popped, and no other. -/
inductive Balanced : List VarOp → Prop where
  | nil : Balanced []
  | step {op : VarOp} {ops : List VarOp} (hop : op.isScope = false) (hops : Balanced ops) :
      Balanced (op :: ops)
  | scope {body ops : List VarOp} (hbody : Balanced body) (hops : Balanced ops) :
      Balanced (.pushScope :: (body ++ .popScope :: ops))

/-- The operations in front of the first that makes a name local, in no scope of their own. -/
def beforeLocal (name : Text) : Nat → List VarOp → Option (List VarOp)
  | _, [] => none
  | depth, op :: ops =>
    match op with
    | .pushScope => (beforeLocal name (depth + 1) ops).map (op :: ·)
    | .popScope => (beforeLocal name (depth - 1) ops).map (op :: ·)
    | .makeLocal other =>
      if depth = 0 ∧ other = name then some []
      else (beforeLocal name depth ops).map (op :: ·)
    | _ => (beforeLocal name depth ops).map (op :: ·)

/-! ## One operation -/

theorem runVars_append (ops more : List VarOp) (v : Variables) :
    runVars (ops ++ more) v = runVars more (runVars ops v) := foldl_append

namespace VarOp

/-- The name that an operation is about. -/
def name : VarOp → Text
  | pushScope | popScope => []
  | makeLocal name | setBytes name _ | setInt name _ | unset name | exportVar name | unexport name
  | declare name | setReadonly name => name

def isReadonly (old : Option Var) : Bool := old.any (·.flags.READONLY)

/-- The binding that an operation makes of the old one. -/
def effect (op : VarOp) (old : Option Var) : Option Var :=
  let var := old.getD (Var.new none {})
  match op with
  | pushScope | popScope | makeLocal _ => old
  | setBytes _ value => if isReadonly old then old else some (Var.new (some value) var.flags)
  | setInt _ value => if isReadonly old then old else some (Variables.intVar value var.flags)
  | unset _ => if isReadonly old then old else none
  | exportVar _ => some { var with flags := { var.flags with EXPORT := true } }
  | unexport _ => old.map fun var => { var with flags := { var.flags with EXPORT := false } }
  | declare _ => some var
  | setReadonly _ => some { var with flags := { var.flags with READONLY := true } }

theorem binding_step {op : VarOp} (hop : op.isScope = false) (v : Variables) :
    (op.step v).binding = Function.update v.binding op.name (op.effect (v.binding op.name)) := by
  have hkept (name : Text) : v.binding = Function.update v.binding name (v.binding name) :=
    (update_eq_self name v.binding).symm
  cases op with
  | pushScope => cases hop
  | popScope => cases hop
  | makeLocal name =>
    rw [step, Variables.makeLocal]
    split
    · exact hkept name
    · exact hkept name
  | setBytes name value =>
    rw [step, Variables.setBytes, effect, isReadonly, VarOp.name, Variables.isReadonly]
    split
    · exact hkept name
    · exact Variables.binding_insert v name _
  | setInt name value =>
    rw [step, Variables.setInt, effect, isReadonly, VarOp.name]
    cases hbinding : v.binding name with
    | none => exact Variables.binding_insert v name _
    | some var =>
      dsimp only [Option.any_some]
      split
      · rw [← hbinding]
        exact hkept name
      · exact Variables.binding_insert v name _
  | unset name =>
    rw [step, Variables.unset, effect, isReadonly, VarOp.name, Variables.isReadonly]
    split
    · exact hkept name
    · exact Variables.binding_erase v name
  | exportVar name => exact Variables.binding_insert v name _
  | unexport name =>
    rw [step, Variables.unexport, effect, VarOp.name]
    cases hbinding : v.binding name with
    | none => exact (hkept name).trans (congrArg _ hbinding)
    | some var => exact Variables.binding_insert v name _
  | declare name | setReadonly name => exact Variables.binding_insert v name _

theorem rest_step {op : VarOp} (hop : op.isScope = false) (hlocal : ∀ name, op ≠ .makeLocal name)
    (v : Variables) : (op.step v).rest = v.rest := by
  cases op with
  | pushScope => cases hop
  | popScope => cases hop
  | makeLocal name => exact absurd rfl (hlocal name)
  | setBytes name value =>
    rw [step, Variables.setBytes]
    split <;> rfl
  | setInt name value =>
    rw [step, Variables.setInt]
    split
    · split <;> rfl
    · rfl
  | unset name =>
    rw [step, Variables.unset]
    split <;> rfl
  | exportVar name => rfl
  | unexport name =>
    rw [step, Variables.unexport]
    split <;> rfl
  | declare name => rfl
  | setReadonly name => rfl

end VarOp

/-! ## One scope -/

/-- The binding of a name that a scope puts back. -/
def Scope.first (scope : Scope) (name : Text) : Option (Option Var) :=
  (scope.saved.find? (·.name = name)).map (·.previous)

/-- A scope that is popped puts back the binding that was saved first. -/
theorem restored_binding (saved : List SavedVar) (vars : AList fun _ : Text => Var) (name : Text) :
    (saved.reverse.foldl Variables.restoreVar vars).lookup name =
      ((saved.find? (·.name = name)).map (·.previous)).getD (vars.lookup name) := by
  induction saved with
  | nil => rfl
  | cons saved more ih =>
    rw [reverse_cons, foldl_append, foldl_cons, foldl_nil, find?_cons,
      Variables.restoreVar]
    by_cases h : saved.name = name
    · subst h
      rw [decide_eq_true rfl]
      dsimp only [Option.map_some, Option.getD_some]
      cases saved.previous with
      | none => exact AList.lookup_erase _ _
      | some var => exact AList.lookup_insert _
    · rw [decide_eq_false h]
      dsimp only
      rw [← ih]
      cases saved.previous with
      | none => exact AList.lookup_erase_ne (Ne.symm h)
      | some var => exact AList.lookup_insert_ne (Ne.symm h)

theorem beforeLocal_append (hbody : Balanced body) (name : Text) (depth : Nat)
    (ops : List VarOp) : beforeLocal name (depth + 1) (body ++ ops) =
      (beforeLocal name (depth + 1) ops).map (body ++ ·) := by
  induction hbody generalizing depth ops with
  | nil => exact Option.map_id'.symm
  | @step op body hop hbody ih =>
    have hmap : (beforeLocal name (depth + 1) (body ++ ops)).map (op :: ·) =
        (beforeLocal name (depth + 1) ops).map (op :: body ++ ·) := by
      rw [ih, Option.map_map]
      rfl
    cases op with
    | pushScope => cases hop
    | popScope => cases hop
    | makeLocal other =>
      rw [cons_append, beforeLocal, if_neg fun h => nomatch h.1]
      exact hmap
    | _ => exact hmap
  | @scope body more hbody hmore ih ihmore =>
    rw [cons_append, beforeLocal, append_assoc, ih, cons_append, beforeLocal,
      Nat.add_sub_cancel, ihmore, Option.map_map, Option.map_map, Option.map_map]
    refine congrArg (Option.map · _) ?_
    funext pre
    simp

theorem rest_popScope {w : Variables} {scope : Scope} {scopes : List Scope}
    (h : w.rest = (env, scope :: scopes, positional, arg0)) :
    w.popScope.rest = (env, scopes, positional, arg0) := by
  obtain ⟨vars, env', scopes', positional', arg0'⟩ := w
  cases h
  rfl

/-- **What a balanced run saves**: of every name that it makes local, first the binding that it
had before. -/
theorem saved_of_balanced {ops : List VarOp} (hops : Balanced ops) {v : Variables} {scope}
    {scopes} (hv : v.scopes = scope :: scopes) :
    ∃ more : Scope, (runVars ops v).rest =
        (v.inherited_env, ⟨scope.saved ++ more.saved⟩ :: scopes, v.positional, v.arg0) ∧
      ∀ name, more.first name =
        (beforeLocal name 0 ops).map fun pre => (runVars pre v).binding name := by
  induction hops generalizing v scope scopes with
  | nil =>
    refine ⟨⟨[]⟩, ?_, fun name => rfl⟩
    rw [append_nil, ← hv]
    rfl
  | @step op ops hop hops ih =>
    by_cases hlocal : ∃ name, op = .makeLocal name
    · obtain ⟨local_name, rfl⟩ := hlocal
      have hstep : VarOp.step v (.makeLocal local_name) =
          { v with scopes := ⟨scope.saved ++ [⟨local_name, v.binding local_name⟩]⟩ :: scopes } := by
        rw [VarOp.step, Variables.makeLocal, hv]
      have hscopes := congrArg Variables.scopes hstep
      obtain ⟨more, hrest, hfirst⟩ := ih hscopes
      refine ⟨⟨⟨local_name, v.binding local_name⟩ :: more.saved⟩, ?_, fun name => ?_⟩
      · rw [hstep] at hrest
        rw [append_assoc] at hrest
        rw [runVars, foldl_cons, hstep]
        exact hrest
      · rw [beforeLocal, Scope.first, find?_cons]
        by_cases heq : local_name = name
        · subst heq
          rw [if_pos ⟨rfl, rfl⟩, decide_eq_true rfl]
          rfl
        · rw [if_neg fun h => heq h.2, decide_eq_false heq, Option.map_map]
          exact hfirst name
    · have hnot (name : Text) : op ≠ .makeLocal name := fun h => hlocal ⟨name, h⟩
      have hstep := VarOp.rest_step hop hnot v
      obtain ⟨henv, hscopes, hpositional, harg0⟩ : (op.step v).inherited_env = v.inherited_env ∧
          (op.step v).scopes = v.scopes ∧ (op.step v).positional = v.positional ∧
          (op.step v).arg0 = v.arg0 := by simpa [Variables.rest] using hstep
      obtain ⟨more, hrest, hfirst⟩ := ih (hscopes.trans hv)
      rw [henv, hpositional, harg0] at hrest
      refine ⟨more, hrest, fun name => ?_⟩
      have hbefore : beforeLocal name 0 (op :: ops) = (beforeLocal name 0 ops).map (op :: ·) := by
        cases op with
        | pushScope => cases hop
        | popScope => cases hop
        | makeLocal other => exact absurd rfl (hnot other)
        | _ => rfl
      rw [hbefore, Option.map_map]
      exact hfirst name
  | @scope body ops hbody hops ih ihops =>
    obtain ⟨inner, hinner, -⟩ := @ih v.pushScope ⟨[]⟩ v.scopes rfl
    have hpop : (runVars body v.pushScope).popScope.rest =
        (v.inherited_env, scope :: scopes, v.positional, v.arg0) := hv ▸ rest_popScope hinner
    -- behind the scope the variables are as before, bindings apart
    obtain ⟨henv, hscopes, hpositional, harg0⟩ :
        (runVars body v.pushScope).popScope.inherited_env = v.inherited_env ∧
        (runVars body v.pushScope).popScope.scopes = scope :: scopes ∧
        (runVars body v.pushScope).popScope.positional = v.positional ∧
        (runVars body v.pushScope).popScope.arg0 = v.arg0 := by
      simpa [Variables.rest] using hpop
    have hrun (more : List VarOp) : runVars (.pushScope :: (body ++ .popScope :: more)) v =
        runVars more (runVars body v.pushScope).popScope := by
      rw [runVars, foldl_cons, foldl_append, foldl_cons]
      rfl
    obtain ⟨more, hrest, hfirst⟩ := ihops hscopes
    refine ⟨more, ?_, fun name => ?_⟩
    · rw [hrun, hrest, henv, hpositional, harg0]
    · rw [hfirst, beforeLocal, beforeLocal_append hbody, beforeLocal, Option.map_map,
        Option.map_map, Option.map_map]
      refine congrArg (Option.map · _) ?_
      funext pre
      exact (congrArg (Variables.binding · name) (hrun pre)).symm

/-! ## Balanced runs -/

/-- A scope around a run. -/
def inScope (body : List VarOp) : List VarOp := .pushScope :: (body ++ [.popScope])

theorem runVars_inScope (body : List VarOp) (v : Variables) :
    runVars (inScope body) v = (runVars (.pushScope :: body) v).popScope := by
  rw [inScope, ← cons_append, runVars_append]
  rfl

theorem inScope_restores {body : List VarOp} (hbody : Balanced body) (v : Variables) :
    (runVars (inScope body) v).rest = v.rest ∧ ∀ name,
      (runVars (inScope body) v).binding name =
        match beforeLocal name 0 body with
        | some pre => (runVars (.pushScope :: pre) v).binding name
        | none => (runVars (.pushScope :: body) v).binding name := by
  obtain ⟨scope, hrest, hfirst⟩ := @saved_of_balanced body hbody v.pushScope ⟨[]⟩ v.scopes rfl
  rw [runVars_inScope]
  refine ⟨rest_popScope hrest, fun name => ?_⟩
  have hscopes : (runVars (.pushScope :: body) v).scopes = scope :: v.scopes :=
    congrArg (·.2.1) hrest
  rw [Variables.popScope, hscopes]
  refine (restored_binding scope.saved _ name).trans ?_
  rw [← Scope.first, hfirst]
  cases beforeLocal name 0 body with
  | none => rfl
  | some pre => rfl

theorem beforeLocal_none (h : .makeLocal name ∉ ops)
    (depth : Nat) : beforeLocal name depth ops = none := by
  induction ops generalizing depth with
  | nil => rfl
  | cons op ops ih =>
    rw [mem_cons, not_or] at h
    have htail := ih h.2
    cases op with
    | makeLocal other =>
      have hne : ¬ (depth = 0 ∧ other = name) := fun heq => h.1 (congrArg _ heq.2.symm)
      rw [beforeLocal, if_neg hne, htail depth]
      rfl
    | _ => exact (congrArg (Option.map (List.cons _)) (htail _)).trans rfl

theorem binding_of_not_local {ops : List VarOp} (hops : Balanced ops) {name}
    (hlocal : .makeLocal name ∉ ops) {v w} (hvw : v.binding name = w.binding name) :
    (runVars ops v).binding name =
      (runVars (ops.filter fun op => !op.isScope) w).binding name := by
  induction hops generalizing v w with
  | nil => exact hvw
  | @step op ops hop hops ih =>
    rw [mem_cons, not_or] at hlocal
    rw [filter_cons_of_pos (by simp [hop])]
    refine ih hlocal.2 ?_
    rw [VarOp.binding_step hop, VarOp.binding_step hop]
    by_cases h : name = op.name
    · subst h
      rw [update_self, update_self, hvw]
    · rw [update_of_ne h, update_of_ne h, hvw]
  | @scope body ops hbody hops ih ihops =>
    have hmem : .makeLocal name ∉ body ∧ .makeLocal name ∉ ops := by simpa using hlocal
    have hrun : runVars (.pushScope :: (body ++ .popScope :: ops)) v =
        runVars ops (runVars (inScope body) v) := by
      rw [← runVars_append, inScope, cons_append, append_assoc]
      rfl
    have hfilter : (VarOp.pushScope :: (body ++ .popScope :: ops)).filter (fun op => !op.isScope) =
        body.filter (fun op => !op.isScope) ++ ops.filter fun op => !op.isScope := by
      rw [filter_cons_of_neg (by simp [VarOp.isScope]), List.filter_append,
        filter_cons_of_neg (by simp [VarOp.isScope])]
    have hscope := (inScope_restores hbody v).2 name
    rw [beforeLocal_none hmem.1] at hscope
    rw [hrun, hfilter, runVars_append]
    exact ihops hmem.2 (hscope.trans (@ih hmem.1 v.pushScope w hvw))

/-- **Scopes restore what they hid**: behind a balanced scope every name that was made local in
it has the binding in front of the first `make_local`, every other name that of the other
operations; and a cached integer is the parse of the value, after any operations. -/
theorem scopes_restore {body : List VarOp} (hbody : Balanced body) (v : Variables) :
    (runVars (inScope body) v).rest = v.rest ∧
      (∀ name, (runVars (inScope body) v).binding name =
        match beforeLocal name 0 body with
        | some pre => (runVars (.pushScope :: pre) v).binding name
        | none => (runVars (.pushScope :: body) v).binding name) ∧
      (∀ name, .makeLocal name ∉ body → (runVars (inScope body) v).binding name =
        (runVars (body.filter fun op => !op.isScope) v).binding name) ∧
      ∀ ops name var n, (runVars ops v).binding name = some var → var.int_cache = some n →
        intCache var.value = some n := by
  obtain ⟨hrest, hbinding⟩ := inScope_restores hbody v
  refine ⟨hrest, hbinding, fun name hlocal => ?_, fun ops name var n _ hcache => ?_⟩
  · rw [hbinding, beforeLocal_none hlocal]
    exact @binding_of_not_local body hbody name hlocal v.pushScope v rfl
  · rw [← var.cached, hcache]

/-- `local x; x=1` in a scope, with `y=2` in a scope of its own. -/
theorem scopes_restore_nested :
    (runVars (inScope [.makeLocal ['x'], .setBytes ['x'] [0x31], .pushScope,
      .setBytes ['y'] [0x32], .popScope]) .newClean).binding ['x'] = none :=
  ((scopes_restore (.step rfl (.step rfl (.scope (.step rfl .nil) .nil))) .newClean).2.1
    ['x']).trans (by decide)

/-- A name that was local in an inner scope only is set behind that scope. -/
theorem inner_local_is_set :
    (runVars (inScope (inScope [.makeLocal ['x']] ++ [.setBytes ['x'] [0x31]])) .newClean).getBytes
        ['x'] = some [0x31] ∧
      (runVars [.pushScope, .pushScope] .newClean).getBytes ['x'] = none :=
  ⟨by decide, by decide⟩

end Ish.Epsh
