import Ish.Epsh.PatternElements
import Ish.Epsh.Units

/-!
# Patterns without active characters

`literal_component` and `fnmatch_inner` on patterns that have no active star, question
mark or bracket expression, though a bracket may be opened and an escape may be the last
character.
-/

namespace Ish.Epsh

open Ish.Lib List

/-! ## Units of a pattern -/

/-- A marker that escapes what follows it, or a unit of shell text. -/
inductive GlobUnit where
  | marker
  | unit (u : ShellUnit)

namespace GlobUnit

def text : GlobUnit → Text
  | marker => [CTLESC]
  | unit u => u.text

def codepoint : GlobUnit → Nat
  | marker => GLOB_ESCAPE
  | unit u => u.codepoint

end GlobUnit

def globText (units : List GlobUnit) : Text := units.flatMap GlobUnit.text

def globPoints (units : List GlobUnit) : List Nat := units.map GlobUnit.codepoint

variable (units : List GlobUnit)

theorem shellChars_globText : shellChars (globText units) = units.map GlobUnit.text := by
  induction units with
  | nil => rfl
  | cons unit units ih =>
    rw [globText, flatMap_cons, ← globText, map_cons, ← ih]
    cases unit with
    | marker => exact shellChars_cons rfl _
    | unit u => exact shellChars_text_append u _

theorem GlobUnit.shellCodepoint_text (unit : GlobUnit) :
    shellCodepoint unit.text = unit.codepoint := by
  cases unit with
  | marker => rfl
  | unit u =>
    have h := shellCodepoints_text_append u []
    have hchars := shellChars_text_append u []
    rw [shellCodepoints, hchars] at h
    exact (List.cons.inj h).1

theorem shellCodepoints_globText : shellCodepoints (globText units) = globPoints units := by
  rw [shellCodepoints, shellChars_globText, map_map]
  exact map_congr_left fun unit _ => unit.shellCodepoint_text

theorem GlobUnit.codepoint_injective : Function.Injective codepoint := by
  intro a b h
  cases a with
  | marker =>
    cases b with
    | marker => rfl
    | unit v => exact absurd h.symm v.codepoint_ne_globEscape
  | unit u =>
    cases b with
    | marker => exact absurd h u.codepoint_ne_globEscape
    | unit v => exact congrArg unit (ShellUnit.codepoint_injective h)

theorem globText_inj {units units'} :
    globText units = globText units' ↔ globPoints units = globPoints units' := by
  constructor
  · intro h
    rw [← shellCodepoints_globText, h, shellCodepoints_globText]
  · intro h
    rw [GlobUnit.codepoint_injective.list_map h]

/-! ## The literal text -/

/-- `literal_component`, on code points. -/
def literalPoints : List Nat → List Nat
  | [] => []
  | c :: pat =>
    if isEscape c then
      match pat with
      | [] => [c]
      | next :: pat => next :: literalPoints pat
    else c :: literalPoints pat

def GlobUnit.isEscape (unit : GlobUnit) : Bool := Epsh.isEscape unit.codepoint

theorem GlobUnit.isEscape_iff (unit : GlobUnit) :
    unit.isEscape = true ↔ unit.text = [CTLESC] ∨ unit.text = ['\\'] := by
  have hcode := unit.shellCodepoint_text
  constructor
  · intro h
    cases unit with
    | marker => exact .inl rfl
    | unit u =>
      simp only [isEscape, Epsh.isEscape, Bool.or_eq_true, beq_iff_eq] at h
      rcases h with h | h
      · cases u with
        | char c =>
          have hc : c = '\\' := Char.toNat_inj.mp h
          exact .inr (by rw [hc]; rfl)
        | byte b high =>
          have hhigh : 0x110000 + b.toNat = BACKSLASH := h
          have hsmall : BACKSLASH = 92 := rfl
          omega
      · exact absurd h u.codepoint_ne_globEscape
  · intro h
    rw [isEscape, ← hcode]
    rcases h with h | h <;> rw [h] <;> rfl

def literalGlob : List GlobUnit → List GlobUnit
  | [] => []
  | unit :: units =>
    if unit.isEscape then
      match units with
      | [] => [unit]
      | next :: units => next :: literalGlob units
    else unit :: literalGlob units

theorem literalComponent_globText :
    literalComponent (globText units) = globText (literalGlob units) := by
  rw [literalComponent, shellChars_globText]
  induction units using literalGlob.induct with
  | case1 => rfl
  | case2 unit h =>
    rw [map_cons, literalUnits.eq_def, literalGlob.eq_def]
    dsimp only
    rw [if_pos (unit.isEscape_iff.mp h), if_pos h, globText, flatMap_singleton]
    rfl
  | case3 unit h next units ih =>
    rw [map_cons, map_cons, literalUnits.eq_def, literalGlob.eq_def]
    dsimp only
    rw [if_pos (unit.isEscape_iff.mp h), if_pos h, globText, flatMap_cons, ← globText, ← ih]
  | case4 unit units h ih =>
    rw [map_cons, literalUnits.eq_def, literalGlob.eq_def]
    dsimp only
    rw [if_neg fun h' => h (unit.isEscape_iff.mpr h'), if_neg h, globText, flatMap_cons,
      ← globText, ← ih]

theorem globPoints_literalGlob :
    globPoints (literalGlob units) = literalPoints (globPoints units) := by
  induction units using literalGlob.induct with
  | case1 => rfl
  | case2 unit h =>
    rw [literalGlob.eq_def]
    dsimp only
    rw [if_pos h]
    exact (if_pos h).symm
  | case3 unit h next units ih =>
    rw [literalGlob.eq_def]
    dsimp only
    rw [if_pos h, globPoints, map_cons, ← globPoints, ih]
    exact (if_pos h).symm
  | case4 unit units h ih =>
    rw [literalGlob.eq_def]
    dsimp only
    rw [if_neg h, globPoints, map_cons, ← globPoints, ih]
    change _ = literalPoints (unit.codepoint :: globPoints units)
    rw [literalPoints.eq_def (unit.codepoint :: globPoints units)]
    exact (if_neg h).symm

/-! ## Brackets that are not closed -/

/-- A bracket that has just been opened is closed later on. -/
def Closed (pat : List Nat) : Prop :=
  ∃ members rest,
    Members true (if pat.head? == some BANG then pat.tail else pat) members rest

theorem bracketChar_or_end (c : Nat) (pat : List Nat) :
    BracketChar (c :: pat) (readBracketChar c pat).1 (readBracketChar c pat).2 ∨
      (readBracketChar c pat).2 = [] := by
  cases pat with
  | nil => exact .inr rfl
  | cons next pat =>
    rw [readBracketChar]
    split
    · rename_i he
      exact .inl (.escaped he next pat)
    · rename_i he
      exact .inl (.plain (Bool.not_eq_true _ ▸ he) (next :: pat))

/-- What one member reads, unless the pattern ends with it. -/
theorem readMember_cases (c : Nat) (pat : List Nat) :
    (readMember c pat).2 = [] ∨
      (∃ u rest, BracketChar (c :: pat) u rest ∧ startsRange rest = false ∧
        readMember c pat = (.unit u, rest)) ∨
      ∃ lo hi rest tail, BracketChar (c :: pat) lo (DASH :: rest) ∧ rest.head? ≠ some CLOSE ∧
        BracketChar rest hi tail ∧ readMember c pat = (.range lo hi, tail) := by
  rcases bracketChar_or_end c pat with hc | hend
  · generalize hread : readBracketChar c pat = read at hc
    obtain ⟨u, rest⟩ := read
    dsimp only at hc
    cases hrange : startsRange rest with
    | false => exact .inr (.inl ⟨u, rest, hc, hrange, readMember_unit hc hrange⟩)
    | true =>
      match rest, hrange with
      | dash :: next :: rest, hrange =>
        simp only [startsRange, Bool.and_eq_true, beq_iff_eq, bne_iff_ne] at hrange
        obtain ⟨rfl, hnext⟩ := hrange
        have hhead : (next :: rest).head? ≠ some CLOSE := fun h => hnext (Option.some.inj h)
        rcases bracketChar_or_end next rest with hhi | hend
        · exact .inr (.inr ⟨u, _, next :: rest, _, hc, hhead, hhi,
            readMember_range hc hhead hhi⟩)
        · refine .inl ?_
          unfold readMember
          rw [hread]
          dsimp only
          rw [if_pos ⟨rfl, hnext⟩, hend]
  · refine .inl ?_
    unfold readMember
    generalize readBracketChar c pat = read at hend
    obtain ⟨u, rest⟩ := read
    dsimp only at hend
    rw [hend]

theorem scanBracket_nil (u : Nat) (first matched : Bool) :
    scanBracket u first matched [] = (matched, []) := by
  rw [scanBracket]

/-- **A scan that finds no bracket reads to the end of the pattern.** -/
theorem scanBracket_closed_or_end (first : Bool) (pat : List Nat) :
    (∃ members rest, Members first pat members rest) ∨
      ∀ u matched, (scanBracket u first matched pat).2 = [] := by
  induction hn : pat.length using Nat.strongRecOn generalizing first pat with
  | ind n ih =>
    cases pat with
    | nil => exact .inr fun u matched => by rw [scanBracket_nil]
    | cons c pat =>
      by_cases hclose : c = CLOSE ∧ first = false
      · obtain ⟨rfl, rfl⟩ := hclose
        exact .inl ⟨[], pat, .close pat⟩
      · -- the member at `c`, and what is behind it
        have hrest := ih (readMember c pat).2.length
          (by rw [← hn]; exact Nat.lt_succ_of_le (length_readMember_le c pat)) false
          (readMember c pat).2 rfl
        have hscan (u : Nat) (matched : Bool) : scanBracket u first matched (c :: pat) =
            scanBracket u false (matched || (readMember c pat).1.lists u)
              (readMember c pat).2 := by
          rw [scanBracket, if_neg hclose]
        have hfirst (h : first = false) : (c :: pat).head? ≠ some CLOSE := fun hc =>
          hclose ⟨Option.some.inj hc, h⟩
        rcases hrest with ⟨members, rest, hmembers⟩ | hend
        · rcases readMember_cases c pat with hend | ⟨u, tail, hc, hrange, hread⟩ |
            ⟨lo, hi, tail, after, hlo, hhead, hhi, hread⟩
          · rw [hend] at hmembers
            cases hmembers with
            | unit _ hc => cases hc
            | range _ hlo => cases hlo
          · rw [hread] at hmembers
            exact .inl ⟨_, rest, .unit hfirst hc hrange hmembers⟩
          · rw [hread] at hmembers
            exact .inl ⟨_, rest, .range hfirst hlo hhead hhi hmembers⟩
        · exact .inr fun u matched => by rw [hscan, hend]

/-! ## Literal patterns -/

/-- Patterns without an active star or question mark, in which no bracket expression is
closed. -/
inductive InertPattern : List Nat → Prop
  | nil : InertPattern []
  | trailing {e : Nat} (he : isEscape e = true) : InertPattern [e]
  | escaped {e : Nat} (he : isEscape e = true) (c : Nat) {pat : List Nat} (h : InertPattern pat) :
      InertPattern (e :: c :: pat)
  | opened {pat : List Nat} (hclosed : ¬ Closed pat) (h : InertPattern pat) : InertPattern (OPEN :: pat)
  | ordinary {c : Nat} (hc : isOrdinary c = true) {pat : List Nat} (h : InertPattern pat) :
      InertPattern (c :: pat)

/-- Those without an active bracket, in which every escape escapes something. -/
inductive LiteralPattern : List Nat → Prop
  | nil : LiteralPattern []
  | escaped {e : Nat} (he : isEscape e = true) (c : Nat) {pat : List Nat} (h : LiteralPattern pat) :
      LiteralPattern (e :: c :: pat)
  | ordinary {c : Nat} (hc : isOrdinary c = true) {pat : List Nat} (h : LiteralPattern pat) :
      LiteralPattern (c :: pat)

theorem literalPoints_escaped {e} (he : isEscape e = true) (c : Nat) (pat : List Nat) :
    literalPoints (e :: c :: pat) = c :: literalPoints pat := if_pos he

theorem literalPoints_cons {c} (hc : isEscape c = false) (pat : List Nat) :
    literalPoints (c :: pat) = c :: literalPoints pat := by
  rw [literalPoints.eq_def]
  exact if_neg (by rw [hc]; exact Bool.false_ne_true)

theorem isEscape_of_ordinary {c} (hc : isOrdinary c = true) : isEscape c = false := by
  simp only [isOrdinary, Bool.not_eq_true', Bool.or_eq_false_iff] at hc
  exact hc.2

theorem next_unit_iff {c pat}
    (h : ∀ s, fnmatchInner pat s = true ↔ s = literalPoints pat) (s : List Nat) :
    (∃ u tail, s = u :: tail ∧ u = c ∧ fnmatchInner pat tail = true) ↔
      s = c :: literalPoints pat := by
  simp only [h]
  constructor
  · rintro ⟨_, _, rfl, rfl, rfl⟩
    rfl
  · rintro rfl
    exact ⟨c, _, rfl, rfl, rfl⟩

/-- **A plain pattern matches its literal text and nothing else.** -/
theorem LiteralPattern.fnmatchInner_iff {pat} (h : LiteralPattern pat) (s : List Nat) :
    fnmatchInner pat s = true ↔ s = literalPoints pat := by
  induction h generalizing s with
  | nil => rw [fnmatchInner_nil, List.isEmpty_iff]; rfl
  | escaped he c h ih =>
    rw [fnmatchInner_escaped he, literalPoints_escaped he]
    exact next_unit_iff ih s
  | ordinary hc h ih =>
    rw [fnmatchInner_ordinary hc, literalPoints_cons (isEscape_of_ordinary hc)]
    exact next_unit_iff ih s

theorem InertPattern.literalPoints_ne_nil {pat} (h : InertPattern pat)
    (hne : pat ≠ []) : literalPoints pat ≠ [] := by
  cases h with
  | nil => exact absurd rfl hne
  | trailing he =>
    rw [literalPoints, if_pos he]
    exact cons_ne_nil _ _
  | escaped he c h =>
    rw [literalPoints_escaped he]
    exact cons_ne_nil _ _
  | opened hclosed h =>
    rw [literalPoints_cons rfl]
    exact cons_ne_nil _ _
  | ordinary hc h =>
    rw [literalPoints_cons (isEscape_of_ordinary hc)]
    exact cons_ne_nil _ _

/-- **Other inert patterns do not match their literal text.** -/
theorem InertPattern.literal_or_unmatched {pat} (h : InertPattern pat) :
    LiteralPattern pat ∨ fnmatchInner pat (literalPoints pat) = false := by
  have hunit {c : Nat} {rest : List Nat} (hrest : fnmatchInner rest (literalPoints rest) = false) :
      ¬ ∃ u tail, c :: literalPoints rest = u :: tail ∧ u = c ∧
        fnmatchInner rest tail = true := by
    rintro ⟨_, _, heq, -, hmatch⟩
    obtain ⟨-, rfl⟩ := List.cons.inj heq
    rw [hrest] at hmatch
    cases hmatch
  induction h with
  | nil => exact .inl .nil
  | trailing he => exact .inr (fnmatchInner_trailing he _)
  | escaped he c h ih =>
    rcases ih with hliteral | hrest
    · exact .inl (.escaped he c hliteral)
    · rw [literalPoints_escaped he, ← Bool.not_eq_true, fnmatchInner_escaped he]
      exact .inr (hunit hrest)
  | @opened pat hclosed h ih =>
    refine .inr ?_
    rw [literalPoints_cons rfl, fnmatchInner_open]
    dsimp only
    by_cases hsame : (scanBracket OPEN true false
        (if pat.head? == some BANG then pat.tail else pat)).1 = (pat.head? == some BANG)
    · rw [if_pos hsame]
    · -- the scan reads the rest of the pattern, so one unit is all that can match
      have hend := (scanBracket_closed_or_end true
        (if pat.head? == some BANG then pat.tail else pat)).resolve_left hclosed
      rw [if_neg hsame, hend, tail_nil, fnmatchInner_nil, isEmpty_eq_false_iff]
      refine h.literalPoints_ne_nil ?_
      rintro rfl
      exact hsame (congrArg Prod.fst (scanBracket_nil OPEN true false))
  | ordinary hc h ih =>
    rcases ih with hliteral | hrest
    · exact .inl (.ordinary hc hliteral)
    · rw [literalPoints_cons (isEscape_of_ordinary hc), ← Bool.not_eq_true,
        fnmatchInner_ordinary hc]
      exact .inr (hunit hrest)

/-! ## Texts -/

theorem fnmatchShell_globText (pattern string : List GlobUnit) :
    fnmatchShell (globText pattern) (globText string) =
      fnmatchInner (globPoints pattern) (globPoints string) := by
  rw [fnmatchShell, shellCodepoints_globText, shellCodepoints_globText]

theorem eq_literalComponent_iff (pattern string : List GlobUnit) :
    globText string = literalComponent (globText pattern) ↔
      globPoints string = literalPoints (globPoints pattern) := by
  rw [literalComponent_globText, globText_inj, globPoints_literalGlob]

/-- **An inert pattern stands for its literal text exactly when no bracket is opened in
it and every escape escapes something.** -/
theorem inert_pattern_is_literal (pattern : List GlobUnit)
    (hinert : InertPattern (globPoints pattern)) :
    (∀ string : List GlobUnit, fnmatchShell (globText pattern) (globText string) = true ↔
      globText string = literalComponent (globText pattern)) ↔
      LiteralPattern (globPoints pattern) := by
  constructor
  · intro h
    refine hinert.literal_or_unmatched.resolve_right fun hunmatched => ?_
    have hliteral := (h (literalGlob pattern)).mpr (literalComponent_globText pattern).symm
    rw [fnmatchShell_globText, globPoints_literalGlob, hunmatched] at hliteral
    cases hliteral
  · intro hliteral string
    rw [fnmatchShell_globText, hliteral.fnmatchInner_iff, eq_literalComponent_iff]

/-- The units of a text. -/
def globUnits (text : String) : List GlobUnit := text.toList.map fun c => .unit (.char c)

/-- An escaped star is literal. -/
theorem inert_pattern_is_literal_star :
    globText (globUnits "a*") = literalComponent (globText (globUnits "a\\*")) := by
  have hpoints : globPoints (globUnits "a\\*") = [97, BACKSLASH, STAR] := rfl
  have hliteral : LiteralPattern (globPoints (globUnits "a\\*")) := by
    rw [hpoints]
    exact .ordinary rfl (.escaped rfl STAR .nil)
  have hinert : InertPattern (globPoints (globUnits "a\\*")) := by
    rw [hpoints]
    exact .ordinary rfl (.escaped rfl STAR .nil)
  have hmatches : fnmatchShell (globText (globUnits "a\\*")) (globText (globUnits "a*")) = true := by
    decide +kernel
  exact ((inert_pattern_is_literal (globUnits "a\\*") hinert).mpr hliteral (globUnits "a*")).mp
    hmatches

/-- An open bracket in front of a letter matches that letter, and not itself. -/
theorem open_bracket_matches_member :
    InertPattern (globPoints (globUnits "[a")) ∧
      fnmatchShell (globText (globUnits "[a")) (globText (globUnits "a")) = true ∧
      fnmatchShell (globText (globUnits "[a")) (globText (globUnits "[a")) = false ∧
      literalComponent (globText (globUnits "[a")) = globText (globUnits "[a") := by
  have hpoints : globPoints (globUnits "[a") = [OPEN, 97] := rfl
  refine ⟨?_, by decide +kernel, by decide +kernel, by decide +kernel⟩
  rw [hpoints]
  refine .opened ?_ (.ordinary rfl .nil)
  rintro ⟨members, rest, h⟩
  change Members true [97] members rest at h
  cases h with
  | unit hfirst hc hrange hmembers =>
    cases hc with
    | plain hplain =>
      cases hmembers with
      | unit _ hc => cases hc
      | range _ hlo => cases hlo
  | range hfirst hlo => cases hlo

end Ish.Epsh
