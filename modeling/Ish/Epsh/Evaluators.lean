import Ish.Epsh.Markers
import Ish.Lib.TwoRuns

/-!
# The two evaluators of a parameter

`expand_param_to_fragments`, in a quoted context, and `expand_param` evaluate a
parameter expression alike: they stop in the same way and state, with the same text
once the marks of the fragments are removed.
-/

namespace Ish.Epsh

open Ish.Lib
open Process (Lockstep Returns bind_error bind_ok)

variable {W : Type}

/-! ## Marked fragments -/

/-- The text of the one is that of the other with some marks. -/
def FragmentMarks (marked fragments : List ExpandedWord) : Prop :=
  Marks (joinValues marked) (joinValues fragments)

theorem joinValues_append (left right : List ExpandedWord) :
    joinValues (left ++ right) = joinValues left ++ joinValues right := List.flatMap_append

theorem joinValues_single (value : Text) (split_fields word_break : Bool) :
    joinValues [⟨value, split_fields, word_break⟩] = value := by
  simp [joinValues]

namespace FragmentMarks

variable {marked marked' fragments fragments' : List ExpandedWord}

theorem append (h : FragmentMarks marked fragments) (h' : FragmentMarks marked' fragments') :
    FragmentMarks (marked ++ marked') (fragments ++ fragments') := by
  rw [FragmentMarks, joinValues_append, joinValues_append]
  exact Marks.append h h'

theorem single {value text : Text} (h : Marks value text) (s s' b b' : Bool) :
    FragmentMarks [⟨value, s, b⟩] [⟨text, s', b'⟩] := by
  rw [FragmentMarks, joinValues_single, joinValues_single]
  exact h

theorem of_fragments (h : ShellFragments fragments) : FragmentMarks fragments fragments :=
  .of_text h.join

theorem positional (vars : Variables) (protect : Bool) :
    FragmentMarks (positionalFragments vars protect) (positionalFragments vars false) := by
  have hvalues : ∀ protect, joinValues (positionalFragments vars protect) =
      (vars.positionalShellStrings.map (protectGlobs · protect)).flatten := by
    intro protect
    rw [joinValues, positionalFragments, List.flatMap_def]
    congr 1
    apply List.ext_getElem <;> simp
  have hplain : vars.positionalShellStrings.map (protectGlobs · false) =
      vars.positionalShellStrings := List.map_id _
  rw [FragmentMarks, hvalues, hvalues, hplain]
  apply Marks.flatten
  have htexts : ∀ text ∈ vars.positionalShellStrings, IsShellText text :=
    fun text => isShellText_positional
  generalize vars.positionalShellStrings = texts at htexts
  induction texts with
  | nil => exact .nil
  | cons text texts ih =>
    rw [List.forall_mem_cons] at htexts
    exact .cons (.protect htexts.1 protect) (ih htexts.2)

end FragmentMarks

theorem lockstep_rawValue (param : ParamExpr) :
    Lockstep (fun a b => a = b ∧ ∀ value ∈ a, IsShellText value) (rawValue (W := W) param)
      (rawValue param) :=
  .of_returns (returns_rawValue param) fun _ h => ⟨rfl, h⟩

/-! ## The functions with and without marks -/

section

variable {out : Outside W} {subst : Command → ShellM W Text}

/-- With fuel `n`, marking what is quoted changes the marks only. -/
structure MarksOnly (out : Outside W) (subst : Command → ShellM W Text) (n : Nat) : Prop where
  inner : ∀ parts p p' e, Lockstep FragmentMarks (expandWordPartsInner out subst n parts true p e)
    (expandWordPartsInner out subst n parts true p' false)
  part : ∀ part p p' e, Lockstep FragmentMarks (expandWordPart out subst n part true p e)
    (expandWordPart out subst n part true p' false)
  quoted : ∀ parts e, Lockstep FragmentMarks (expandQuoted out subst n parts e)
    (expandQuoted out subst n parts false)
  fragments : ∀ param e, Lockstep FragmentMarks (expandParamToFragments out subst n param true e)
    (expandParamToFragments out subst n param true false)

namespace MarksOnly

variable {n : Nat} (ih : MarksOnly out subst n) (htext : ExpandsToText out subst n)
include ih

theorem inner_succ (parts : List WordPart) (p p' e : Bool) :
    Lockstep FragmentMarks (expandWordPartsInner out subst (n + 1) parts true p e)
      (expandWordPartsInner out subst (n + 1) parts true p' false) := by
  cases parts with
  | nil =>
    rw [expandWordPartsInner, expandWordPartsInner]
    exact .pure .nil
  | cons part parts =>
    rw [expandWordPartsInner, expandWordPartsInner]
    exact .bind (ih.part part p p' e) fun _ _ hpart => .bind (ih.inner parts p p' e)
      fun _ _ hrest => .pure (hpart.append hrest)

include htext

omit htext in
theorem part_succ (hsubst : ∀ cmd, Returns IsShellText (subst cmd)) (part : WordPart)
    (p p' e : Bool) :
    Lockstep FragmentMarks (expandWordPart out subst (n + 1) part true p e)
      (expandWordPart out subst (n + 1) part true p' false) := by
  cases part with
  | Literal s =>
    rw [expandWordPart, expandWordPart]
    exact .pure (.single (.of_text (.bytesToStr s)) _ _ _ _)
  | SingleQuoted s =>
    rw [expandWordPart, expandWordPart]
    exact .pure (.single (.protect (.bytesToStr s) e) _ _ _ _)
  | DoubleQuoted inner =>
    rw [expandWordPart, expandWordPart]
    refine .bind (ih.quoted inner e) fun _ _ hquoted => .pure ?_
    split
    · exact .append (.single .nil _ _ _ _) hquoted
    · exact hquoted
  | Param param =>
    rw [expandWordPart, expandWordPart]
    refine .bind (.refl getShell) fun sh _ hsh => ?_
    subst hsh
    split
    · refine .ite (fun h => absurd h.2 (by decide)) fun _ => ?_
      refine .ite (fun _ => .pure (.single (.of_text (isShellText_positionalJoin _
        (isShellText_separator _))) _ _ _ _)) fun _ => ?_
      refine .ite (fun _ => .pure (.of_fragments ?_)) fun _ => ih.fragments param e
      intro fragment hfragment
      obtain ⟨arg, harg, rfl⟩ := List.mem_map.mp hfragment
      exact isShellText_positional harg
    · exact ih.fragments param e
  | CmdSubst cmd | Backtick cmd =>
    rw [expandWordPart, expandWordPart]
    exact .bind (.of_returns (hsubst cmd) fun _ h => Marks.of_text h) fun _ _ h =>
      .pure (.single h _ _ _ _)
  | Arith inner =>
    rw [expandWordPart, expandWordPart]
    refine .bind (.refl _) fun fragments _ h => ?_
    subst h
    refine .bind (.refl _) fun result _ h => ?_
    subst h
    cases result with
    | ok value => exact .pure (.single (.of_text (.intText _)) _ _ _ _)
    | error e => exact .fail _
  | Tilde user =>
    rw [expandWordPart, expandWordPart]
    refine .bind (.refl getShell) fun sh _ hsh => ?_
    subst hsh
    exact .pure (.single (.protect (isShellText_tilde _ user) e) _ _ _ _)

theorem quoted_succ (parts : List WordPart) (e : Bool) :
    Lockstep FragmentMarks (expandQuoted out subst (n + 1) parts e)
      (expandQuoted out subst (n + 1) parts false) := by
  cases parts with
  | nil =>
    rw [expandQuoted, expandQuoted]
    exact .pure .nil
  | cons part parts =>
    rw [expandQuoted, expandQuoted]
    have hrest : ∀ marked fragments, FragmentMarks marked fragments → Lockstep FragmentMarks
        (do let rest ← expandQuoted out subst n parts e; return marked ++ rest)
        (do let rest ← expandQuoted out subst n parts false; return fragments ++ rest) :=
      fun _ _ h => .bind (ih.quoted parts e) fun _ _ hrest => .pure (h.append hrest)
    refine .ite (fun _ => ?_) fun _ => ?_
    · refine .bind (.refl getShell) fun sh _ hsh => ?_
      subst hsh
      exact hrest _ _ (.positional _ e)
    · have hvalue : Lockstep (fun a b => a = b ∧ IsShellText (joinValues a))
          (expandWordPartsInner out subst n [part] true false false)
          (expandWordPartsInner out subst n [part] true false false) :=
        .of_returns (htext.inner [part] true false) fun _ h => ⟨rfl, h.join⟩
      refine .bind hvalue fun value _ h => ?_
      obtain ⟨rfl, h⟩ := h
      exact hrest _ _ (.single (.protect h e) _ _ _ _)

omit htext in
theorem fragments_succ (param : ParamExpr) (e : Bool)
    (htext : ∀ param, Returns ShellFragments (expandParamToFragments out subst (n + 1) param true false)) :
    Lockstep FragmentMarks (expandParamToFragments out subst (n + 1) param true e)
      (expandParamToFragments out subst (n + 1) param true false) := by
  have hsame := Lockstep.of_returns (htext param) fun _ h => FragmentMarks.of_fragments h
  rw [expandParamToFragments] at hsame ⊢
  rw [expandParamToFragments]
  obtain ⟨name, op, span⟩ := param
  cases op with
  | Default colon word =>
    refine .bind (lockstep_rawValue _) fun raw_value _ h => ?_
    obtain ⟨rfl, hvalue⟩ := h
    exact .ite (fun _ => ih.inner word true true e) fun _ =>
      .pure (.single (.of_text (isShellText_getD hvalue)) _ _ _ _)
  | Alternative colon word =>
    refine .bind (lockstep_rawValue _) fun raw_value _ h => ?_
    obtain ⟨rfl, hvalue⟩ := h
    exact .ite (fun _ => .pure .nil) fun _ => ih.inner word true true e
  | _ => exact hsame

end MarksOnly

theorem marksOnly (hsubst : ∀ cmd, Returns IsShellText (subst cmd)) (n : Nat) :
    MarksOnly out subst n := by
  induction n with
  | zero => constructor <;> intros <;> exact .diverge
  | succ n ih =>
    have htext := expandsToText out hsubst n
    have hfragments := (expandsToText out hsubst (n + 1)).fragments
    exact ⟨ih.inner_succ, ih.part_succ hsubst, ih.quoted_succ htext,
      fun param e => ih.fragments_succ param e fun param => hfragments param true⟩

/-! ## The two evaluators -/

/-- The fragments spell the text. -/
def Spell (fragments : List ExpandedWord) (text : Text) : Prop := Marks (joinValues fragments) text

theorem Spell.single {value : Text} (h : IsShellText value) (s b : Bool) :
    Spell [⟨value, s, b⟩] value := by
  rw [Spell, joinValues_single]
  exact .of_text h

theorem lockstep_word (hsubst : ∀ cmd, Returns IsShellText (subst cmd)) (n : Nat)
    (word : List WordPart) (p e : Bool) :
    Lockstep Spell (expandWordPartsInner out subst n word true p e)
      (expandParamWord out subst (n + 1) word) := by
  rw [expandParamWord, ← bind_pure (expandWordPartsInner out subst n word true p e)]
  exact .bind ((marksOnly hsubst n).inner word p false e) fun _ _ h => .pure h

variable (hsubst : ∀ cmd, Returns IsShellText (subst cmd)) (n : Nat) (param : ParamExpr) (e : Bool)

/-- The operators that return their word, with a unit of fuel more. -/
theorem lockstep_default {colon word m}
    (hword : Lockstep Spell (expandWordPartsInner out subst n word true true e)
      (expandParamWord out subst m word))
    (hop : param.op = .Default colon word ∨ param.op = .Alternative colon word) :
    Lockstep Spell (expandParamToFragments out subst (n + 1) param true e)
      (expandParam out subst (m + 1) param) := by
  rw [expandParamToFragments, expandParam]
  refine .bind (lockstep_rawValue param) fun raw_value _ h => ?_
  obtain ⟨rfl, hvalue⟩ := h
  rcases hop with hop | hop
  · rw [hop]
    exact .ite (fun _ => hword) fun _ => .pure (.single (isShellText_getD hvalue) _ _)
  · rw [hop]
    exact .ite (fun _ => .pure .nil) fun _ => hword

/-- An operator with a word that is not its value, or without one. -/
def ParamOp.isScalar : ParamOp → Bool
  | .BadSubst | .Normal | .Length | .Assign .. | .Error .. => true
  | _ => false

def ParamOp.isTrim : ParamOp → Bool
  | .TrimSuffixSmall _ | .TrimSuffixLarge _ | .TrimPrefixSmall _ | .TrimPrefixLarge _ => true
  | _ => false

include hsubst in
theorem lockstep_scalar (hop : param.op.isScalar = true) :
    Lockstep Spell (expandParamToFragments out subst (n + 1) param true e)
      (expandParam out subst (n + 1) param) := by
  rw [expandParamToFragments, expandParam]
  refine .bind (lockstep_rawValue param) fun raw_value _ h => ?_
  obtain ⟨rfl, hvalue⟩ := h
  have hwhole : ∀ {value : Text}, IsShellText value →
      Lockstep (X := ExitStatus) (E := ShellError) (S := Machine W) Spell
        (pure [⟨value, false, false⟩]) (pure value) := fun h => .pure (.single h _ _)
  cases hcase : param.op with
  | BadSubst => exact .fail _
  | Normal => exact hwhole (isShellText_getD hvalue)
  | Length => exact hwhole (isShellText_length _)
  | Assign colon word =>
    have hword : Lockstep (fun a b => a = b ∧ IsShellText a) (expandParamWord out subst n word)
        (expandParamWord out subst n word) :=
      .of_returns ((expandsToText out hsubst n).word word) fun _ h => ⟨rfl, h⟩
    refine .ite (fun _ => ?_) fun _ => hwhole (isShellText_getD hvalue)
    refine .bind hword fun value _ h => ?_
    obtain ⟨rfl, htext⟩ := h
    dsimp only
    rw [htext.removeGlobEscapes]
    exact .bind (.refl _) fun _ _ _ => hwhole htext
  | Error colon word =>
    refine .ite (fun _ => ?_) fun _ => hwhole (isShellText_getD hvalue)
    refine .bind (.refl _) fun msg _ h => ?_
    subst h
    exact .fail _
  | Default | Alternative | TrimSuffixSmall | TrimSuffixLarge | TrimPrefixSmall | TrimPrefixLarge =>
    rw [hcase] at hop; cases hop

/-- The raw value is looked up, or reported as missing, and nothing else. -/
theorem rawValue_run (param : ParamExpr) (m : Machine W) :
    (∃ value, rawValue param m = some (.ok value, m)) ∨
      ∃ e, rawValue param m = some (.error e, m) := by
  have hend : ∀ (missing : Bool) (value : Option Text) (failure : ShellError),
      let x : ShellM W (Option Text) := do
        if missing then Process.fail failure
        return value
      (∃ value, x m = some (.ok value, m)) ∨ ∃ e, x m = some (.error e, m) := by
    intro missing value failure
    cases missing with
    | true => exact Or.inr ⟨failure, rfl⟩
    | false => exact Or.inl ⟨value, rfl⟩
  have hsh : getShell m = some (.ok m.shell, m) := rfl
  rw [rawValue, bind_ok hsh]
  exact hend _ _ _

include hsubst in
/-- A trim is evaluated by `expand_param`, after its raw value is looked up once. -/
theorem lockstep_trim (hop : param.op.isTrim = true) :
    Lockstep Spell (expandParamToFragments out subst (n + 2) param true e)
      (expandParam out subst (n + 1) param) := by
  have htext : Lockstep (fun a b => a = b ∧ IsShellText a) (expandParam out subst (n + 1) param)
      (expandParam out subst (n + 1) param) :=
    .of_returns ((expandsToText out hsubst (n + 1)).param param) fun _ h => ⟨rfl, h⟩
  intro m
  have hagain : expandParamToFragments out subst (n + 2) param true e =
      rawValue param >>= fun _ => (fun text => [⟨text, false, false⟩]) <$>
        expandParam out subst (n + 1) param := by
    rw [expandParamToFragments]
    cases hcase : param.op <;> first | rfl | (rw [hcase] at hop; cases hop)
  rw [hagain]
  rcases rawValue_run param m with ⟨value, hraw⟩ | ⟨failure, hraw⟩
  · have hmap := htext.map (f := fun text => [(⟨text, false, false⟩ : ExpandedWord)]) (g := id)
      (Q := Spell) fun text _ h => h.1 ▸ .single h.2 _ _
    rw [id_map] at hmap
    rw [bind_ok hraw]
    exact hmap m
  · rw [bind_error hraw, expandParam, bind_error hraw]
    exact .error failure m

include hsubst in
/-- Each run of the one evaluator is a run of the other, with a little more or less
fuel. -/
theorem lockstep_param :
    (∀ n, ∃ m, Lockstep Spell (expandParamToFragments out subst n param true e)
      (expandParam out subst m param)) ∧
    ∀ m, ∃ n, Lockstep Spell (expandParamToFragments out subst n param true e)
      (expandParam out subst m param) := by
  have hzero : Lockstep Spell (expandParamToFragments out subst 0 param true e)
      (expandParam out subst 0 param) := .diverge
  have hop : param.op.isScalar = true ∨ param.op.isTrim = true ∨
      ∃ colon word, param.op = .Default colon word ∨ param.op = .Alternative colon word := by
    cases param.op with
    | Default colon word => exact Or.inr (Or.inr ⟨colon, word, Or.inl rfl⟩)
    | Alternative colon word => exact Or.inr (Or.inr ⟨colon, word, Or.inr rfl⟩)
    | BadSubst | Normal | Length | Assign | Error => exact Or.inl rfl
    | TrimSuffixSmall | TrimSuffixLarge | TrimPrefixSmall | TrimPrefixLarge =>
      exact Or.inr (Or.inl rfl)
  rcases hop with hop | hop | ⟨colon, word, hop⟩
  · refine ⟨fun n => ⟨n, ?_⟩, fun n => ⟨n, ?_⟩⟩
    · cases n with
      | zero => exact hzero
      | succ n => exact lockstep_scalar hsubst n param e hop
    · cases n with
      | zero => exact hzero
      | succ n => exact lockstep_scalar hsubst n param e hop
  · have hone : Lockstep Spell (expandParamToFragments out subst 1 param true e)
        (expandParam out subst 1 param) := by
      rw [expandParamToFragments, expandParam]
      refine .bind (lockstep_rawValue param) fun _ _ _ => ?_
      cases hcase : param.op with
      | TrimSuffixSmall | TrimSuffixLarge | TrimPrefixSmall | TrimPrefixLarge =>
        exact .bind (P := fun _ _ => False) .diverge fun _ _ h => h.elim
      | _ => rw [hcase] at hop; cases hop
    constructor
    · intro n
      rcases n with _ | _ | n
      · exact ⟨0, hzero⟩
      · exact ⟨1, hone⟩
      · exact ⟨n + 1, lockstep_trim hsubst n param e hop⟩
    · intro m
      cases m with
      | zero => exact ⟨0, hzero⟩
      | succ m => exact ⟨m + 2, lockstep_trim hsubst m param e hop⟩
  · have hone : Lockstep Spell (expandParamToFragments out subst 1 param true e)
        (expandParam out subst 1 param) := lockstep_default 0 param e (m := 0) .diverge hop
    have hmore : ∀ n, Lockstep Spell (expandParamToFragments out subst (n + 1) param true e)
        (expandParam out subst (n + 2) param) := fun n =>
      lockstep_default n param e (lockstep_word hsubst n word true e) hop
    constructor
    · intro n
      cases n with
      | zero => exact ⟨0, hzero⟩
      | succ n => exact ⟨n + 2, hmore n⟩
    · intro m
      rcases m with _ | _ | m
      · exact ⟨0, hzero⟩
      · exact ⟨1, hone⟩
      · exact ⟨m + 1, hmore m⟩

theorem rawValue_variable {param colon word}
    (hop : param.op = .Assign colon word) (hname : isSpecialParam param.name = false)
    (m : Machine W) : rawValue param m = some (.ok (m.shell.vars.getShell param.name), m) := by
  have hother : ¬ (param.name = ['*'] ∨ param.name = ['@']) := by
    rintro (h | h) <;> rw [h] at hname <;> cases hname
  have hsh : getShell m = some (.ok m.shell, m) := rfl
  rw [rawValue, bind_ok hsh, hop]
  simp only [if_neg hother, hname, Bool.false_eq_true, if_false, ParamOp.needsValue, Bool.and_false]
  rfl

/-- A value stored by `${name=word}` is the text that is returned. -/
theorem assign_stores {m t value colon word}
    (hop : param.op = .Assign colon word) (hname : isSpecialParam param.name = false)
    (hrun : expandParam out subst n param m = some (.ok value, t))
    (hwritable : t.shell.vars.isReadonly param.name = false) :
    t.shell.vars.getBytes param.name = some (strToBytes value) := by
  cases n with
  | zero => cases hrun
  | succ n =>
    rw [expandParam, bind_ok (rawValue_variable hop hname m), hop] at hrun
    dsimp only at hrun
    by_cases hunset : isUnset colon (m.shell.vars.getShell param.name) = true
    · rw [if_pos hunset] at hrun
      obtain ⟨text, u, hword, hrun⟩ := Process.bind_eq_ok hrun
      obtain ⟨result, u', hset, hrun⟩ := Process.bind_eq_ok hrun
      cases hrun
      rw [setShell, tryVars] at hset
      have hsh : getShell u = some (.ok u.shell, u) := rfl
      rw [bind_ok hsh, Variables.setShell, Variables.setBytes] at hset
      by_cases hreadonly : u.shell.vars.isReadonly param.name = true
      · -- the assignment is refused
        rw [if_pos hreadonly] at hset
        cases hset
        rw [hreadonly] at hwritable
        cases hwritable
      · rw [if_neg hreadonly] at hset
        cases hset
        rw [Variables.getBytes, Variables.binding_insert, Function.update_self]
        rfl
    · rw [if_neg hunset] at hrun
      cases hrun
      rw [Variables.getShell] at hunset ⊢
      cases hbytes : m.shell.vars.getBytes param.name with
      | none =>
        rw [hbytes] at hunset
        exact absurd rfl hunset
      | some bytes => rw [Option.map_some, Option.getD_some, strToBytes_bytesToStr]

end

/-- **The two evaluators agree**: on every parameter expression and state they stop in
the same way and state, with the same text once the marks are removed; the text has none
of its own, and `${name=word}` has stored it. -/
theorem evaluators_agree (out : Outside W) (eval : Command → ShellM W ExitStatus)
    (param : ParamExpr) (escape_quoted_globs : Bool) (m : Machine W) :
    (∀ stop : Ending ExitStatus ShellError Text × Machine W,
      (∃ n, expandParam out (commandSubst out eval) n param m = some stop) ↔
        ∃ n, ((fun fragments => removeGlobEscapes (joinValues fragments)) <$>
          expandParamToFragments out (commandSubst out eval) n param true escape_quoted_globs) m =
            some stop) ∧
      ∀ n value t, expandParam out (commandSubst out eval) n param m = some (.ok value, t) →
        removeGlobEscapes value = value ∧
          ∀ colon word, param.op = .Assign colon word → isSpecialParam param.name = false →
            t.shell.vars.isReadonly param.name = false →
              t.shell.vars.getBytes param.name = some (strToBytes value) := by
  have hsubst := returns_commandSubst out eval
  have hequal : ∀ {n k}, Lockstep Spell
      (expandParamToFragments out (commandSubst out eval) n param true escape_quoted_globs)
      (expandParam out (commandSubst out eval) k param) →
      (fun fragments => removeGlobEscapes (joinValues fragments)) <$>
          expandParamToFragments out (commandSubst out eval) n param true escape_quoted_globs =
        expandParam out (commandSubst out eval) k param := by
    intro n k h
    have hmap := h.map (f := fun fragments => removeGlobEscapes (joinValues fragments)) (g := id)
      (Q := Eq) fun _ _ hspell => hspell.remove
    rw [id_map] at hmap
    exact hmap.eq_of_lockstep
  obtain ⟨hfragments, hparam⟩ := @lockstep_param W out _ hsubst param escape_quoted_globs
  refine ⟨fun stop => ⟨fun ⟨k, hrun⟩ => ?_, fun ⟨n, hrun⟩ => ?_⟩, fun n value t hrun => ?_⟩
  · obtain ⟨n, h⟩ := hparam k
    exact ⟨n, (congrFun (hequal h) m).trans hrun⟩
  · obtain ⟨k, h⟩ := hfragments n
    exact ⟨k, (congrFun (hequal h) m).symm.trans hrun⟩
  · have htext := (expandsToText out hsubst n).param param m value t hrun
    exact ⟨htext.removeGlobEscapes, fun colon word hop hname hwritable =>
      assign_stores n param hop hname hrun hwritable⟩

end Ish.Epsh
