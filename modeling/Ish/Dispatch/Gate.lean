import Ish.Dispatch.Plan

/-!
# Gate — what a planned line can reach

The checks of `plan` visit every command a line can reach, and nothing else
decides. A command reaches those inside it and those its words, assignments and
redirections hold, through quotes, arithmetic and substitutions.
-/

namespace Ish.Dispatch

open List Option

open Ish.Epsh (Text ShellBytes CommandRule Command Word WordPart Redir RedirKind HereDocBody
  Assignment ParamOp Program isBuiltin commandAction CommandAction bytesToStr strToBytes)

/-! ## What a command reaches -/

mutual

/-- A part, or what its quotes or its arithmetic hold. -/
def leaf : WordPart → List WordPart
  | .DoubleQuoted inner => leaves inner
  | .Arith inner => leaves inner
  | part => [part]

def leaves : List WordPart → List WordPart
  | [] => []
  | part :: parts => leaf part ++ leaves parts

end

/-- The words of a redirection. -/
def kindParts : RedirKind → List WordPart
  | .Input word | .Output word | .Clobber word | .Append word | .ReadWrite word
  | .DupInput word | .DupOutput word => word.parts
  | .HereDoc (.Parsed parts) | .HereDocStrip (.Parsed parts) => parts
  | .HereDoc (.Literal _) | .HereDocStrip (.Literal _) => []

/-- The parts a simple command has of its own. -/
def ownParts : Command → List WordPart
  | .Simple assigns args redirs _ =>
    assigns.flatMap (·.value.parts) ++ (args.flatMap (·.parts) ++
      redirs.flatMap (kindParts ·.kind))
  | _ => []

def substituted : WordPart → Option Command
  | .CmdSubst command | .Backtick command => some command
  | _ => none

/-- The commands directly inside one. A compound command is refused as such. -/
def children : Command → List Command
  | .Simple assigns args redirs span =>
    (leaves (ownParts (.Simple assigns args redirs span))).filterMap substituted
  | .Pipeline commands _ _ => commands
  | .And left right | .Or left right | .Sequence left right => [left, right]
  | .Not inner => [inner]
  | _ => []

def Reaches : Command → Command → Prop :=
  Relation.ReflTransGen fun command child => child ∈ children command

/-! ## What is admitted -/

/-- Words, and what they name once `command` is looked through. -/
inductive Unwraps (words : List Text) : List Text → Prop where
  | self : Unwraps words words
  | command {rest nested : List Text} : Unwraps words ("command".toList :: rest) →
      commandAction ("command".toList :: rest) = .Execute nested → Unwraps words nested

/-- A name that is not refused, with arguments its rule allows. -/
def AllowedCall (name : Text) (arguments : List Text) : Prop :=
  (∀ spec, lookup name = some spec → spec.exec ≠ .InShell) ∧
    (isBuiltin name = true → name ∈ epshBuiltinNames) ∧
    ∀ rule, epshArgumentRule name = some rule →
      ∃ done, rule.validateArguments (arguments.map strToBytes) = .ok done

def AllowedWords (words : List Word) : Prop :=
  ∀ name rest, Unwraps (staticPrefix words) (name :: rest) → AllowedCall name (name :: rest)

/-- A part that is a parameter operator. -/
def IsOperator : WordPart → Prop
  | .Param param =>
    match param.op with
    | .Normal | .BadSubst => False
    | _ => True
  | _ => False

/-- What the gate asks of one command. -/
def Admitted : Command → Prop
  | .Simple assigns args redirs span =>
    AllowedWords args ∧
      ∀ part ∈ leaves (ownParts (.Simple assigns args redirs span)), ¬ IsOperator part
  | .Pipeline _ _ _ | .And _ _ | .Or _ _ | .Sequence _ _ | .Not _ => True
  | _ => False

/-- All that a command reaches is admitted. -/
def Safe (command : Command) : Prop := ∀ reached, Reaches command reached → Admitted reached

/-- Parts hold no operator, and all that their substitutions reach is admitted. -/
def SafeParts (parts : List WordPart) : Prop :=
  (∀ part ∈ leaves parts, ¬ IsOperator part) ∧
    ∀ command ∈ (leaves parts).filterMap substituted, Safe command

theorem safe_iff (command : Command) :
    Safe command ↔ Admitted command ∧ ∀ child ∈ children command, Safe child := by
  constructor
  · intro h
    refine ⟨h command .refl, ?_⟩
    intro child hchild reached hreached
    exact h reached (.head hchild hreached)
  · rintro ⟨hadmitted, hchildren⟩ reached hreached
    rcases Relation.ReflTransGen.cases_head hreached with rfl | ⟨child, hchild, hrest⟩
    · exact hadmitted
    · exact hchildren child hchild reached hrest

theorem safeParts_append (parts more : List WordPart) :
    SafeParts (parts ++ more) ↔ SafeParts parts ∧ SafeParts more := by
  have hleaves : leaves (parts ++ more) = leaves parts ++ leaves more := by
    induction parts with
    | nil => simp [leaves]
    | cons part parts ih => simp [leaves, ih]
  simp only [SafeParts, hleaves, filterMap_append, mem_append]
  constructor
  · intro h
    exact ⟨⟨fun part hpart => h.1 part (Or.inl hpart), fun c hc => h.2 c (Or.inl hc)⟩,
      fun part hpart => h.1 part (Or.inr hpart), fun c hc => h.2 c (Or.inr hc)⟩
  · rintro ⟨hfirst, hsecond⟩
    exact ⟨fun part hpart => hpart.elim (hfirst.1 part) (hsecond.1 part),
      fun c hc => hc.elim (hfirst.2 c) (hsecond.2 c)⟩

theorem safeParts_nil : SafeParts [] := by
  simp [SafeParts, leaves]

theorem safe_simple (assigns : List Assignment) (args : List Word) (redirs : List Redir)
    (span : Epsh.Span) :
    Safe (.Simple assigns args redirs span) ↔
      AllowedWords args ∧ SafeParts (assigns.flatMap (·.value.parts)) ∧
        SafeParts (args.flatMap (·.parts)) ∧ SafeParts (redirs.flatMap (kindParts ·.kind)) := by
  rw [safe_iff, ← safeParts_append, ← safeParts_append]
  simp only [Admitted, children, SafeParts, ownParts, and_assoc]

/-! ## The checks decide it -/

theorem ok_bind {α β : Type} {x} {f : α → Except Rejection β} {b : β} :
    (x >>= f) = .ok b ↔ ∃ a, x = .ok a ∧ f a = .ok b := by
  cases x with
  | error rejection => simp [bind, Except.bind]
  | ok a => simp [bind, Except.bind]

theorem ok_then {x y : Except Rejection Unit} :
    (x >>= fun _ => y) = .ok () ↔ x = .ok () ∧ y = .ok () := by
  rw [ok_bind]
  constructor
  · rintro ⟨⟨⟩, hx, hy⟩
    exact ⟨hx, hy⟩
  · rintro ⟨hx, hy⟩
    exact ⟨(), hx, hy⟩

theorem refusedCommandName_eq_none (name : Text) :
    refusedCommandName name = none ↔
      (∀ spec, lookup name = some spec → spec.exec ≠ .InShell) ∧
        (isBuiltin name = true → name ∈ epshBuiltinNames) := by
  rw [refusedCommandName]
  cases hlookup : (lookup name).filter (·.exec = .InShell) with
  | some spec =>
    obtain ⟨hspec, hexec⟩ := filter_eq_some_iff.mp hlookup
    simp only [reduceCtorEq, false_iff]
    rintro ⟨hnone, _⟩
    exact hnone spec hspec (of_decide_eq_true hexec)
  | none =>
    have hnone : ∀ spec, lookup name = some spec → spec.exec ≠ .InShell := by
      intro spec hspec hexec
      rw [hspec, filter_some, if_pos (by simpa using hexec)] at hlookup
      cases hlookup
    simp only [ite_eq_right_iff, reduceCtorEq, imp_false, Bool.and_eq_true, not_and,
      Bool.not_eq_true', contains_eq_mem, decide_eq_false_iff_not, not_not]
    exact ⟨fun h => ⟨hnone, h⟩, fun h => h.2⟩

theorem checkArguments_iff (name : Text) (arguments : List Text) :
    checkArguments name arguments = .ok () ↔ AllowedCall name arguments := by
  rw [AllowedCall, ← and_assoc, ← refusedCommandName_eq_none, checkArguments]
  cases refusedCommandName name with
  | some rejection => simp
  | none =>
    cases epshArgumentRule name with
    | none => simp
    | some rule =>
      simp only [some.injEq, forall_eq', Except.mapError]
      cases rule.validateArguments (arguments.map strToBytes) with
      | error diagnostic => simp
      | ok done => simp

/-- What `command` runs is unwrapped like the words themselves. -/
theorem unwraps_command {rest nested words}
    (haction : commandAction ("command".toList :: rest) = .Execute nested) :
    Unwraps ("command".toList :: rest) words ↔
      words = "command".toList :: rest ∨ Unwraps nested words := by
  constructor
  · intro h
    induction h with
    | self => exact Or.inl rfl
    | command _ hnext ih =>
      rcases ih with hsame | hinner
      · rw [hsame, haction] at hnext
        cases hnext
        exact Or.inr .self
      · exact Or.inr (hinner.command hnext)
  · rintro (rfl | h)
    · exact .self
    · induction h with
      | self => exact .command .self haction
      | command _ hnext ih => exact ih.command hnext

/-- Words that `command` runs nothing of name only themselves. -/
theorem unwraps_self {words : List Text} (hwords : ∀ rest nested, words = "command".toList :: rest →
      commandAction ("command".toList :: rest) ≠ .Execute nested) (other : List Text) :
    Unwraps words other ↔ other = words := by
  constructor
  · intro h
    induction h with
    | self => rfl
    | command _ hnext ih => exact absurd hnext (hwords _ _ ih.symm)
  · rintro rfl
    exact .self

theorem not_unwraps_nil (name : Text) (rest : List Text) : ¬ Unwraps [] (name :: rest) := by
  intro h
  rw [unwraps_self fun _ _ hnil => absurd hnil (cons_ne_nil _ _).symm] at h
  exact cons_ne_nil _ _ h

/-- **The loop** checks all that the words name. -/
theorem checkStaticLoop_iff {n : Nat} {words} (hn : words.length ≤ n) :
    checkStaticLoop n words = .ok () ↔
      ∀ name rest, Unwraps words (name :: rest) → AllowedCall name (name :: rest) := by
  induction n generalizing words with
  | zero =>
    have hnil : words = [] := eq_nil_of_length_eq_zero (Nat.le_zero.mp hn)
    subst hnil
    exact ⟨fun _ name rest h => absurd h (not_unwraps_nil name rest), fun _ => rfl⟩
  | succ n ih =>
    cases words with
    | nil => exact ⟨fun _ name rest h => absurd h (not_unwraps_nil name rest), fun _ => rfl⟩
    | cons name rest =>
      have hself : (∀ tail nested, name :: rest = "command".toList :: tail →
          commandAction ("command".toList :: tail) ≠ .Execute nested) →
          (AllowedCall name (name :: rest) ↔ ∀ other more, Unwraps (name :: rest) (other :: more) →
            AllowedCall other (other :: more)) := by
        intro hwords
        constructor
        · intro hfirst other more hother
          cases (unwraps_self hwords _).mp hother
          exact hfirst
        · intro h
          exact h name rest .self
      rw [checkStaticLoop, ok_then, checkArguments_iff]
      by_cases hcommand : name = "command".toList
      · subst hcommand
        rw [if_neg (not_not.mpr rfl)]
        cases haction : commandAction ("command".toList :: rest) with
        | Execute nested =>
          have hshorter := Epsh.length_execute haction (cons_ne_nil _ _)
          rw [length_cons] at hn hshorter
          have hrest := ih (show nested.length ≤ n by omega)
          simp only [hrest, unwraps_command haction]
          constructor
          · rintro ⟨hfirst, hnested⟩ other more (hsame | hinner)
            · cases hsame
              exact hfirst
            · exact hnested other more hinner
          · intro h
            exact ⟨h _ _ (Or.inl rfl),
              fun other more hinner => h other more (Or.inr hinner)⟩
        | Empty | Describe verbose names =>
          refine (and_iff_left rfl).trans (hself ?_)
          rintro tail nested ⟨⟩
          rw [haction]
          exact nofun
      · rw [if_pos hcommand]
        refine (and_iff_left rfl).trans (hself ?_)
        intro tail nested hsame
        exact absurd (List.cons.inj hsame).1 hcommand

theorem checkStaticArguments_iff (words : List Word) :
    checkStaticArguments words = .ok () ↔ AllowedWords words :=
  checkStaticLoop_iff le_rfl

mutual

/-- **The checks decide safety**: by the structure of the command. -/
theorem checkCommand_iff (command : Command) : checkCommand command = .ok () ↔ Safe command := by
  match command with
  | .Simple assigns args redirs span =>
    rw [checkCommand, ok_then, ok_then, ok_then, checkStaticArguments_iff,
      checkAssigns_iff assigns, checkWords_iff args, checkRedirs_iff redirs, safe_simple]
  | .Pipeline commands bang span =>
    rw [checkCommand, checkCommands_iff commands, safe_iff]
    simp [Admitted, children]
  | .And left right =>
    rw [checkCommand, ok_then, checkCommand_iff left, checkCommand_iff right,
      safe_iff (.And left right)]
    simp [Admitted, children]
  | .Or left right =>
    rw [checkCommand, ok_then, checkCommand_iff left, checkCommand_iff right,
      safe_iff (.Or left right)]
    simp [Admitted, children]
  | .Sequence left right =>
    rw [checkCommand, ok_then, checkCommand_iff left, checkCommand_iff right,
      safe_iff (.Sequence left right)]
    simp [Admitted, children]
  | .Not inner =>
    rw [checkCommand, checkCommand_iff inner, safe_iff (.Not inner)]
    simp [Admitted, children]
  | .Background _ _ | .FuncDef _ _ | .Subshell _ _ | .BraceGroup _ _ | .If _ _ _ | .While _ _
  | .Until _ _ | .For _ _ _ | .Case _ _ =>
    rw [checkCommand]
    exact ⟨nofun, fun h => (h _ .refl).elim⟩

theorem checkCommands_iff (commands : List Command) :
    checkCommands commands = .ok () ↔ ∀ command ∈ commands, Safe command := by
  match commands with
  | [] => simp [checkCommands]
  | command :: commands =>
    rw [checkCommands, ok_then, checkCommand_iff command, checkCommands_iff commands]
    simp

theorem checkAssigns_iff (assigns : List Assignment) :
    checkAssigns assigns = .ok () ↔ SafeParts (assigns.flatMap (·.value.parts)) := by
  match assigns with
  | [] => simp [checkAssigns, safeParts_nil]
  | ⟨name, ⟨parts⟩⟩ :: assigns =>
    rw [checkAssigns, ok_then, checkParts_iff parts, checkAssigns_iff assigns,
      flatMap_cons, safeParts_append]

theorem checkWords_iff (words : List Word) :
    checkWords words = .ok () ↔ SafeParts (words.flatMap (·.parts)) := by
  match words with
  | [] => simp [checkWords, safeParts_nil]
  | ⟨parts⟩ :: words =>
    rw [checkWords, ok_then, checkParts_iff parts, checkWords_iff words, flatMap_cons,
      safeParts_append]

theorem checkRedirs_iff (redirs : List Redir) :
    checkRedirs redirs = .ok () ↔ SafeParts (redirs.flatMap (kindParts ·.kind)) := by
  match redirs with
  | [] => simp [checkRedirs, safeParts_nil]
  | ⟨fd, kind, span⟩ :: redirs =>
    rw [checkRedirs, ok_then, checkKind_iff kind, checkRedirs_iff redirs, flatMap_cons,
      safeParts_append]

theorem checkKind_iff (kind : RedirKind) :
    checkKind kind = .ok () ↔ SafeParts (kindParts kind) := by
  match kind with
  | .Input ⟨parts⟩ | .Output ⟨parts⟩ | .Clobber ⟨parts⟩ | .Append ⟨parts⟩ | .ReadWrite ⟨parts⟩
  | .DupInput ⟨parts⟩ | .DupOutput ⟨parts⟩ | .HereDoc (.Parsed parts)
  | .HereDocStrip (.Parsed parts) =>
    rw [checkKind, kindParts]
    exact checkParts_iff parts
  | .HereDoc (.Literal _) | .HereDocStrip (.Literal _) =>
    simp [checkKind, kindParts, safeParts_nil]

theorem checkParts_iff (parts : List WordPart) : checkParts parts = .ok () ↔ SafeParts parts := by
  match parts with
  | [] => simp [checkParts, safeParts_nil]
  | part :: parts =>
    rw [checkParts, ok_then, checkPart_iff part, checkParts_iff parts, ← safeParts_append,
      singleton_append]

theorem checkPart_iff (part : WordPart) : checkPart part = .ok () ↔ SafeParts [part] := by
  match part with
  | .Literal _ | .SingleQuoted _ | .Tilde _ =>
    simp [checkPart, SafeParts, leaves, leaf, IsOperator, substituted]
  | .DoubleQuoted inner | .Arith inner =>
    rw [checkPart, checkParts_iff inner]
    simp [SafeParts, leaves, leaf]
  | .Param ⟨name, op, span⟩ =>
    cases op <;> simp [checkPart, SafeParts, leaves, leaf, IsOperator, substituted]
  | .CmdSubst command | .Backtick command =>
    rw [checkPart, checkCommand_iff command]
    simp [SafeParts, leaves, leaf, IsOperator, substituted]

end

/-! ## Plans -/

/-- The program is one call of a builtin, with no assignment or redirection. -/
def LoneCall (program : Program) (spec : Builtin) (args : List Word) : Prop :=
  ∃ first span name, program.commands = [.Simple [] (first :: args) [] span] ∧
    staticText first = some name ∧ lookup name = some spec

theorem loneBuiltin_iff (program : Program) (spec : Builtin) (args : List Word) :
    loneBuiltin program = some (spec, args) ↔
      LoneCall program spec args ∧ (spec.exec = .InShell ∨ spec.exec = .Hybrid) := by
  constructor
  · intro h
    rw [loneBuiltin] at h
    split at h
    · rename_i first rest span hcommands
      split at h
      · rename_i found hfound
        split at h
        · rename_i hexec
          cases h
          obtain ⟨name, hname, hlookup⟩ := bind_eq_some_iff.mp hfound
          exact ⟨⟨first, span, name, hcommands, hname, hlookup⟩, hexec⟩
        · cases h
      · cases h
    · cases h
  · rintro ⟨⟨first, span, name, hcommands, hname, hlookup⟩, hexec⟩
    simp only [loneBuiltin, hcommands, hname, bind_some, hlookup, if_pos hexec]

/-- What `plan` went through. -/
theorem plan_eq_ok (parse : Text → Except Text Program) (line : Text) (planned : Plan) :
    plan parse line = .ok planned ↔
      ∃ program, parse line = .ok program ∧
        ((∃ spec args, loneBuiltin program = some (spec, args) ∧ checkWords args = .ok () ∧
            planned = .Builtin spec.name args) ∨
          (loneBuiltin program = none ∧ checkCommands program.commands = .ok () ∧
            planned = .Epsh program)) := by
  rw [plan, ok_bind]
  have hparse : ∀ program, (parse line).mapError Rejection.Syntax = .ok program ↔
      parse line = .ok program := by
    intro program
    cases parse line <;> simp [Except.mapError]
  simp only [hparse]
  refine exists_congr fun program => and_congr_right fun _ => ?_
  cases hlone : loneBuiltin program with
  | some call =>
    obtain ⟨spec, args⟩ := call
    simp only [ok_bind, some.injEq, Prod.mk.injEq, reduceCtorEq, false_and, or_false]
    constructor
    · rintro ⟨⟨⟩, hwords, hplanned⟩
      cases hplanned
      exact ⟨spec, args, ⟨rfl, rfl⟩, hwords, rfl⟩
    · rintro ⟨_, _, ⟨rfl, rfl⟩, hwords, rfl⟩
      exact ⟨(), hwords, rfl⟩
  | none =>
    simp only [ok_bind, reduceCtorEq, false_and, exists_false, false_or, true_and]
    constructor
    · rintro ⟨⟨⟩, hcommands, hplanned⟩
      cases hplanned
      exact ⟨hcommands, rfl⟩
    · rintro ⟨hcommands, rfl⟩
      exact ⟨(), hcommands, rfl⟩

/-- **The gate** plans for epsh what parses, is no lone call that runs in the
shell, and reaches nothing that is refused. It plans a builtin for such a lone
call, when its arguments reach nothing that is refused. -/
theorem plan_iff (parse : Text → Except Text Program) (line : Text) :
    (∀ program, plan parse line = .ok (.Epsh program) ↔
      parse line = .ok program ∧
        (¬ ∃ spec args, LoneCall program spec args ∧
          (spec.exec = .InShell ∨ spec.exec = .Hybrid)) ∧
        ∀ command ∈ program.commands, ∀ reached, Reaches command reached → Admitted reached) ∧
    ∀ name args, plan parse line = .ok (.Builtin name args) ↔
      ∃ program spec, parse line = .ok program ∧ LoneCall program spec args ∧
        (spec.exec = .InShell ∨ spec.exec = .Hybrid) ∧ spec.name = name ∧
        SafeParts (args.flatMap (·.parts)) := by
  constructor
  · intro program
    have hnone : loneBuiltin program = none ↔ ¬ ∃ spec args, LoneCall program spec args ∧
        (spec.exec = .InShell ∨ spec.exec = .Hybrid) := by
      simp only [← loneBuiltin_iff]
      rw [eq_none_iff_forall_ne_some]
      simp
    rw [plan_eq_ok, ← hnone]
    have hsafe := checkCommands_iff program.commands
    constructor
    · rintro ⟨parsed, hparse, ⟨_, _, _, _, hplan⟩ | ⟨hlone, hcommands, hplan⟩⟩
      · cases hplan
      · cases hplan
        exact ⟨hparse, hlone, hsafe.mp hcommands⟩
    · rintro ⟨hparse, hlone, hcommands⟩
      exact ⟨program, hparse, Or.inr ⟨hlone, hsafe.mpr hcommands, rfl⟩⟩
  · intro name args
    rw [plan_eq_ok]
    constructor
    · rintro ⟨program, hparse, ⟨spec, words, hlone, hwords, hplan⟩ | ⟨_, _, hplan⟩⟩
      · cases hplan
        obtain ⟨hcall, hexec⟩ := (loneBuiltin_iff program spec args).mp hlone
        exact ⟨program, spec, hparse, hcall, hexec, rfl, (checkWords_iff args).mp hwords⟩
      · cases hplan
    · rintro ⟨program, spec, hparse, hcall, hexec, rfl, hsafe⟩
      exact ⟨program, hparse, Or.inl ⟨spec, args, (loneBuiltin_iff program spec args).mpr
        ⟨hcall, hexec⟩, (checkWords_iff args).mpr hsafe, rfl⟩⟩

/-- The line `cd`. -/
def loneCd : Program :=
  { commands := [.Simple [] [{ parts := [.Literal (strToBytes "cd".toList)] }] [] {}] }

/-- The hybrid builtin `cd`, alone on its line, is no in-shell builtin and
reaches nothing that is refused, but it is not planned for epsh. -/
theorem not_plan_loneCd :
    ¬ (plan (fun _ => .ok loneCd) "cd".toList = .ok (.Epsh loneCd) ↔
      (fun _ => Except.ok loneCd : Text → Except Text Program) "cd".toList = .ok loneCd ∧
        (¬ ∃ spec args, LoneCall loneCd spec args ∧ spec.exec = .InShell) ∧
        ∀ command ∈ loneCd.commands, ∀ reached, Reaches command reached → Admitted reached) := by
  have hlone : loneBuiltin loneCd = some (.hybrid "cd".toList none, []) := rfl
  have hcommands : checkCommands loneCd.commands = .ok () := by decide
  intro hclaim
  have hplan := hclaim.mpr ⟨rfl, ?_, (checkCommands_iff loneCd.commands).mp hcommands⟩
  · obtain ⟨program, hparse, ⟨_, _, _, _, hepsh⟩ | ⟨hnone, _, _⟩⟩ :=
      (plan_eq_ok _ _ _).mp hplan
    · cases hepsh
    · cases hparse
      rw [hlone] at hnone
      cases hnone
  · rintro ⟨spec, args, hcall, hexec⟩
    have hsome := (loneBuiltin_iff loneCd spec args).mpr ⟨hcall, Or.inl hexec⟩
    rw [hlone] at hsome
    cases hsome
    cases hexec

end Ish.Dispatch
