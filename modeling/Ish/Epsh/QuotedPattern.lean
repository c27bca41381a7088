import Ish.Epsh.Eval
import Ish.Epsh.LiteralPattern
import Ish.Epsh.PatternReading

/-!
# Quoted text in patterns

The pieces that `expand_pattern` makes a pattern of, active or quoted, with the units that
they are. What expands is shell text, without markers of its own, so a pattern is read by
its units; whether its quoted units are read as themselves is decided here.
-/

namespace Ish.Epsh

open Ish.Lib List

variable {W : Type}

/-! ## Shell text -/

namespace IsShellText

theorem flatten {texts : List Text} (h : ∀ text ∈ texts, IsShellText text) :
    IsShellText texts.flatten := by
  induction texts with
  | nil => exact nil
  | cons text texts ih =>
    exact (h text mem_cons_self).append (ih fun t ht => h t (mem_cons_of_mem text ht))

theorem toDigits (n : Nat) : IsShellText (Nat.toDigits 10 n) := by
  refine of_ascii (all_eq_true.mpr fun c hc => decide_eq_true ?_)
  have hdigit : '0'.toNat ≤ c.toNat ∧ c.toNat ≤ '9'.toNat :=
    Char.isDigit_iff_toNat.mp (Numeral.isDigit_of_mem_toDigits hc)
  exact lt_of_le_of_lt hdigit.2 (by decide)

theorem intText (n : Int) : IsShellText (toString n).toList := by
  cases n with
  | ofNat m =>
    have htext : (toString (Int.ofNat m)).toList = Nat.toDigits 10 m := Nat.toList_repr
    rw [htext]
    exact toDigits m
  | negSucc m =>
    have htext : (toString (Int.negSucc m)).toList = '-' :: Nat.toDigits 10 (m + 1) := by
      change ("-" ++ Nat.repr (m + 1)).toList = _
      rw [String.toList_append, Nat.toList_repr]
      rfl
    rw [htext]
    exact cons (text_of_ascii (by decide)) (toDigits (m + 1))

theorem of_units {text : Text} (h : IsShellText text) {units : List Text}
    (hunits : units.Sublist (shellChars text)) : IsShellText units.flatten := by
  obtain ⟨us, rfl⟩ := h
  rw [shellChars_units] at hunits
  obtain ⟨vs, -, rfl⟩ := sublist_map_iff.mp hunits
  exact ⟨vs, rfl⟩

theorem removeGlobEscapes {text : Text} (h : IsShellText text) :
    Epsh.removeGlobEscapes text = text := by
  obtain ⟨us, rfl⟩ := h
  rw [Epsh.removeGlobEscapes, shellChars_units]
  induction us with
  | nil => rfl
  | cons u us ih =>
    have hmarker : u.text ≠ [CTLESC] := by
      intro heq
      have h := (GlobUnit.unit u).shellCodepoint_text
      rw [GlobUnit.text, heq] at h
      exact u.codepoint_ne_globEscape h.symm
    rw [map_cons, removeGlobEscapesLoop.eq_def]
    dsimp only
    rw [if_neg hmarker, ih, flatMap_cons]

theorem intercalate {sep : Text} (hsep : IsShellText sep) {texts : List Text}
    (h : ∀ text ∈ texts, IsShellText text) : IsShellText (List.intercalate sep texts) := by
  rw [List.intercalate]
  refine flatten fun text ht => ?_
  induction texts with
  | nil => cases ht
  | cons first texts ih =>
    cases texts with
    | nil =>
      rw [intersperse_singleton] at ht
      exact h text ht
    | cons second texts =>
      rw [intersperse_cons_cons, mem_cons, mem_cons] at ht
      rcases ht with rfl | rfl | ht
      · exact h text mem_cons_self
      · exact hsep
      · exact ih (fun t ht => h t (mem_cons_of_mem first ht)) ht

theorem text_newline {u : ShellUnit} {init : Text} (h : u.text = init ++ ['\n']) :
    u.text = ['\n'] := by
  have hmem : '\n' ∈ u.text := by rw [h]; simp
  cases u with
  | char c =>
    rw [ShellUnit.text, pushText, flatMap_cons, flatMap_nil, append_nil] at hmem
    have hc : c = '\n' := by
      split at hmem
      · rcases mem_pair.mp hmem with heq | heq
        · exact absurd heq (by decide)
        · exact heq.symm
      · exact (mem_singleton.mp hmem).symm
    rw [hc]
    exact text_of_ascii (by decide)
  | byte b high =>
    have hmark := congrArg Char.toNat (mem_singleton.mp hmem)
    rw [toNat_rawMark, PUA_BASE] at hmark
    change 10 = _ at hmark
    omega

theorem dropNewlines {text : Text} (h : IsShellText text) :
    IsShellText (text.reverse.dropWhile (· == '\n')).reverse := by
  obtain ⟨us, rfl⟩ := h
  induction us using List.reverseRecOn with
  | nil => exact nil
  | append_singleton us u ih =>
    have htext : (us ++ [u]).flatMap ShellUnit.text = us.flatMap ShellUnit.text ++ u.text := by
      rw [flatMap_append, flatMap_singleton]
    rw [htext]
    rcases u.text.eq_nil_or_concat with hnil | ⟨init, last, hlast⟩
    · rw [hnil, append_nil]
      exact ih
    rw [concat_eq_append] at hlast
    by_cases hnewline : last = '\n'
    · rw [text_newline (hnewline ▸ hlast), reverse_append]
      exact ih
    · have hkept : (us.flatMap ShellUnit.text ++ u.text).reverse.dropWhile (· == '\n') =
          (us.flatMap ShellUnit.text ++ u.text).reverse := by
        rw [hlast, ← append_assoc, reverse_append]
        exact dropWhile_cons_of_neg (by simpa using hnewline)
      rw [hkept, reverse_reverse]
      exact ⟨us ++ [u], htext.symm⟩

end IsShellText

/-! ## What expands is shell text -/

open Process (Returns)

def ShellFragments (fragments : List ExpandedWord) : Prop :=
  ∀ fragment ∈ fragments, IsShellText fragment.value

theorem ShellFragments.join {fragments : List ExpandedWord} (h : ShellFragments fragments) :
    IsShellText (joinValues fragments) := by
  rw [joinValues, flatMap_def]
  refine .flatten fun text ht => ?_
  obtain ⟨fragment, hfragment, rfl⟩ := mem_map.mp ht
  exact h fragment hfragment

theorem ShellFragments.append {left right} (h : ShellFragments left)
    (h' : ShellFragments right) : ShellFragments (left ++ right) := by
  intro fragment hfragment
  rcases mem_append.mp hfragment with hleft | hright
  · exact h fragment hleft
  · exact h' fragment hright

theorem ShellFragments.single {value : Text} (h : IsShellText value) (split_fields word_break : Bool) :
    ShellFragments [⟨value, split_fields, word_break⟩] := by
  intro fragment hfragment
  rw [mem_singleton.mp hfragment]
  exact h

theorem isShellText_getShell {v : Variables} (h : v.getShell name = some value) :
    IsShellText value := by
  rw [Variables.getShell, Option.map_eq_some_iff] at h
  obtain ⟨bytes, -, rfl⟩ := h
  exact .bytesToStr bytes

theorem isShellText_positional {v : Variables}
    (h : text ∈ v.positionalShellStrings) : IsShellText text := by
  obtain ⟨bytes, -, rfl⟩ := mem_map.mp h
  exact .bytesToStr bytes

theorem isShellText_positionalJoin (v : Variables) {sep : Text} (hsep : IsShellText sep) :
    IsShellText (v.positionalJoinShell sep) :=
  .intercalate hsep fun _ => isShellText_positional

theorem isShellText_ifs (v : Variables) : IsShellText v.ifs := by
  rw [Variables.ifs]
  cases h : v.getShell "IFS".toList with
  | none => exact .of_ascii rfl
  | some value => exact isShellText_getShell h

theorem isShellText_separator (v : Variables) : IsShellText (joinSeparator v) := by
  rw [joinSeparator]
  cases h : shellChars v.ifs with
  | nil => exact .nil
  | cons unit units =>
    have hunit := @IsShellText.of_units _ (isShellText_ifs v) [unit]
      (h ▸ singleton_sublist.mpr mem_cons_self)
    rwa [flatten_singleton] at hunit

theorem isShellText_special {v : Variables} {name value : Text}
    (opts : ShellOpts)
    (h : v.getSpecial name exitStatus shellPid opts.flagsString lastBgPid = some value) :
    IsShellText value := by
  have hflag : ∀ (b : Bool) {c : Char}, c.toNat < 128 → IsShellText (if b then [c] else []) := by
    intro b c hc
    split
    · exact .cons (IsShellText.text_of_ascii hc) .nil
    · exact .nil
  have hflags : IsShellText opts.flagsString :=
    .append (.append (.append (.append (.append (hflag _ (by decide)) (hflag _ (by decide)))
      (hflag _ (by decide))) (hflag _ (by decide))) (hflag _ (by decide))) (hflag _ (by decide))
  rw [Variables.getSpecial] at h
  split at h
  · cases h; exact .intText _
  split at h
  · cases h; exact .toDigits _
  split at h
  · cases h; exact .toDigits _
  split at h
  · cases h; exact .bytesToStr _
  split at h
  · cases h; exact hflags
  split at h
  · obtain ⟨pid, -, rfl⟩ := Option.map_eq_some_iff.mp h
    exact .toDigits _
  split at h
  · cases h; exact isShellText_positionalJoin v (.of_ascii rfl)
  split at h
  · split at h
    · obtain ⟨bytes, -, rfl⟩ := Option.map_eq_some_iff.mp h
      exact .bytesToStr bytes
    · cases h
  · exact isShellText_getShell h

theorem returns_rawValue (param : ParamExpr) :
    Returns (fun raw_value : Option Text => ∀ value ∈ raw_value, IsShellText value)
      (rawValue (W := W) param) := by
  rw [rawValue]
  refine .bind fun sh => ?_
  have hvalue : ∀ value ∈ (if param.name = ['*'] ∨ param.name = ['@'] then
      some (sh.vars.positionalJoinShell (joinSeparator sh.vars))
    else if isSpecialParam param.name then
      sh.vars.getSpecial param.name sh.exit_status.code sh.pid sh.opts.flagsString sh.last_bg_pid
    else sh.vars.getShell param.name), IsShellText value := by
    intro value hvalue
    split at hvalue
    · obtain rfl := Option.some.inj hvalue
      exact isShellText_positionalJoin _ (isShellText_separator _)
    · split at hvalue
      · exact isShellText_special sh.opts hvalue
      · exact isShellText_getShell hvalue
  exact .ite (fun _ => .bind fun _ => .pure hvalue) fun _ => .pure hvalue

theorem isShellText_getD {raw_value : Option Text} (h : ∀ value ∈ raw_value, IsShellText value) :
    IsShellText (raw_value.getD []) := by
  cases raw_value with
  | none => exact .nil
  | some value => exact h value rfl

theorem isShellText_length (raw_value : Option Text) : IsShellText (lengthText raw_value) := by
  cases raw_value with
  | none => exact .of_ascii rfl
  | some value => exact .toDigits _

theorem isShellText_tilde (vars : Variables) (user : ShellBytes) :
    IsShellText (expandTilde vars user) := by
  rw [expandTilde]
  split
  · cases h : vars.getShell "HOME".toList with
    | none => exact .of_ascii rfl
    | some value => exact isShellText_getShell h
  · exact .cons (IsShellText.text_of_ascii (by decide)) (.bytesToStr user)

variable (out : Outside W)

theorem isShellText_trimSuffix {value : Text} (h : IsShellText value)
    (pattern : Text) (greedy : Bool) : IsShellText (trimSuffix out value pattern greedy) := by
  rw [trimSuffix]
  split
  · exact h.of_units (take_sublist _ _)
  · exact h

theorem isShellText_trimPrefix {value : Text} (h : IsShellText value)
    (pattern : Text) (greedy : Bool) : IsShellText (trimPrefix out value pattern greedy) := by
  rw [trimPrefix]
  split
  · exact h.of_units (drop_sublist _ _)
  · exact h

theorem shellFragments_positional (vars : Variables) :
    ShellFragments (positionalFragments vars false) := by
  intro fragment hfragment
  rw [positionalFragments] at hfragment
  obtain ⟨index, hindex, rfl⟩ := mem_mapIdx.mp hfragment
  exact isShellText_positional (getElem_mem hindex)

/-! ### The functions of expansion -/

/-- With fuel `n`, what expands without guards is shell text. -/
structure ExpandsToText (out : Outside W) (subst : Command → ShellM W Text) (n : Nat) : Prop where
  inner : ∀ parts q p, Returns ShellFragments (expandWordPartsInner out subst n parts q p false)
  part : ∀ part q p, Returns ShellFragments (expandWordPart out subst n part q p false)
  quoted : ∀ parts, Returns ShellFragments (expandQuoted out subst n parts false)
  fragments : ∀ param q, Returns ShellFragments (expandParamToFragments out subst n param q false)
  param : ∀ param, Returns IsShellText (expandParam out subst n param)
  word : ∀ parts, Returns IsShellText (expandParamWord out subst n parts)

namespace ExpandsToText

variable {out : Outside W} {subst : Command → ShellM W Text} {n : Nat}
  (ih : ExpandsToText out subst n)
include ih

theorem inner_succ (parts : List WordPart) (q p : Bool) :
    Returns ShellFragments (expandWordPartsInner out subst (n + 1) parts q p false) := by
  cases parts with
  | nil =>
    rw [expandWordPartsInner]
    exact .pure nofun
  | cons part parts =>
    rw [expandWordPartsInner]
    exact .andThen (ih.part part q p) fun _ hpart => .andThen (ih.inner parts q p) fun _ hrest =>
      .pure (hpart.append hrest)

theorem part_succ (hsubst : ∀ cmd, Returns IsShellText (subst cmd)) (part : WordPart) (q p : Bool) :
    Returns ShellFragments (expandWordPart out subst (n + 1) part q p false) := by
  cases part with
  | Literal s | SingleQuoted s =>
    rw [expandWordPart]
    exact .pure (.single (.bytesToStr s) _ _)
  | DoubleQuoted inner =>
    rw [expandWordPart]
    refine .andThen (ih.quoted inner) fun fragments hfragments => .pure ?_
    split
    · exact .append (.single .nil false false) hfragments
    · exact hfragments
  | Param param =>
    rw [expandWordPart]
    refine .bind fun sh => ?_
    split
    · refine .ite (fun _ => .pure (shellFragments_positional _)) fun _ => ?_
      refine .ite (fun _ => .pure (.single (isShellText_positionalJoin _
        (isShellText_separator _)) _ _)) fun _ => ?_
      refine .ite (fun _ => .pure ?_) fun _ => ih.fragments param q
      intro fragment hfragment
      obtain ⟨arg, harg, rfl⟩ := mem_map.mp hfragment
      exact isShellText_positional harg
    · exact ih.fragments param q
  | CmdSubst cmd | Backtick cmd =>
    rw [expandWordPart]
    exact .andThen (hsubst cmd) fun _ htext => .pure (.single htext _ _)
  | Arith inner =>
    rw [expandWordPart]
    refine .bind fun fragments => .bind fun result => ?_
    cases result with
    | ok value => exact .pure (.single (.intText _) _ _)
    | error e => exact .fail _
  | Tilde user =>
    rw [expandWordPart]
    exact .bind fun sh => .pure (.single (isShellText_tilde _ user) _ _)

theorem quoted_succ (parts : List WordPart) :
    Returns ShellFragments (expandQuoted out subst (n + 1) parts false) := by
  cases parts with
  | nil =>
    rw [expandQuoted]
    exact .pure nofun
  | cons part parts =>
    rw [expandQuoted]
    have hrest : ∀ fragments, ShellFragments fragments → Returns ShellFragments (do
        let rest ← expandQuoted out subst n parts false
        return fragments ++ rest) := fun fragments hfragments =>
      .andThen (ih.quoted parts) fun _ hrest => .pure (hfragments.append hrest)
    refine .ite (fun _ => .bind fun sh => ?_) fun _ => ?_
    · exact hrest _ (shellFragments_positional _)
    · exact .andThen (ih.inner [part] true false) fun _ hvalue =>
        hrest _ (.single hvalue.join _ _)

theorem fragments_succ (param : ParamExpr) (q : Bool) :
    Returns ShellFragments (expandParamToFragments out subst (n + 1) param q false) := by
  rw [expandParamToFragments]
  refine .andThen (returns_rawValue param) fun raw_value hvalue => ?_
  have hget := isShellText_getD hvalue
  cases param.op with
  | BadSubst => exact .fail _
  | Normal => exact .pure (.single hget _ _)
  | Length => exact .pure (.single (isShellText_length _) _ _)
  | Default colon word =>
    exact .ite (fun _ => ih.inner word q true) fun _ => .pure (.single hget _ _)
  | Assign colon word =>
    refine .ite (fun _ => ?_) fun _ => .pure (.single hget _ _)
    refine .andThen (ih.word word) fun value hword => .bind fun _ => .pure (.single ?_ _ _)
    rw [hword.removeGlobEscapes]
    exact hword
  | Error colon word =>
    exact .ite (fun _ => .bind fun _ => .fail _) fun _ => .pure (.single hget _ _)
  | Alternative colon word =>
    exact .ite (fun _ => .pure nofun) fun _ => ih.inner word q true
  | TrimSuffixSmall pattern | TrimSuffixLarge pattern | TrimPrefixSmall pattern
    | TrimPrefixLarge pattern =>
    exact .andThen (ih.param param) fun _ htext => .pure (.single htext _ _)

theorem param_succ (param : ParamExpr) :
    Returns IsShellText (expandParam out subst (n + 1) param) := by
  rw [expandParam]
  refine .andThen (returns_rawValue param) fun raw_value hvalue => ?_
  have hget := isShellText_getD hvalue
  cases param.op with
  | BadSubst => exact .fail _
  | Normal => exact .pure hget
  | Length => exact .pure (isShellText_length _)
  | Default colon word => exact .ite (fun _ => ih.word word) fun _ => .pure hget
  | Assign colon word =>
    exact .ite (fun _ => .andThen (ih.word word) fun _ hword => .bind fun _ => .pure hword)
      fun _ => .pure hget
  | Error colon word => exact .ite (fun _ => .bind fun _ => .fail _) fun _ => .pure hget
  | Alternative colon word => exact .ite (fun _ => .pure .nil) fun _ => ih.word word
  | TrimSuffixSmall pattern | TrimSuffixLarge pattern =>
    exact .bind fun _ => .pure (isShellText_trimSuffix out hget _ _)
  | TrimPrefixSmall pattern | TrimPrefixLarge pattern =>
    exact .bind fun _ => .pure (isShellText_trimPrefix out hget _ _)

theorem word_succ (parts : List WordPart) :
    Returns IsShellText (expandParamWord out subst (n + 1) parts) := by
  rw [expandParamWord]
  exact .andThen (ih.inner parts true false) fun _ hvalue => .pure hvalue.join

end ExpandsToText

theorem expandsToText
    (hsubst : ∀ cmd, Returns IsShellText (subst cmd)) (n : Nat) : ExpandsToText out subst n := by
  induction n with
  | zero => constructor <;> intros <;> exact .diverge
  | succ n ih =>
    exact ⟨ih.inner_succ, ih.part_succ hsubst, ih.quoted_succ, ih.fragments_succ, ih.param_succ,
      ih.word_succ⟩

theorem returns_commandSubst (eval : Command → ShellM W ExitStatus)
    (cmd : Command) : Returns IsShellText (commandSubst out eval cmd) := by
  rw [commandSubst]
  exact .bind fun _ => .bind fun _ => .bind fun _ => .bind fun raw => .bind fun _ => .bind fun _ =>
    .pure (IsShellText.bytesToStr raw).dropNewlines

/-! ## Pieces -/

/-- What one part of a word is in a pattern: an unquoted literal, or quoted text and what
expands. -/
inductive PatternPiece where
  | active (text : Text)
  | quoted (text : Text)

namespace PatternPiece

def text : PatternPiece → Text
  | active text | quoted text => text

/-- As `expand_pattern` writes it. -/
def escaped : PatternPiece → Text
  | active text => text
  | quoted text => escapePattern text

/-- As pathname expansion writes it. -/
def guarded : PatternPiece → Text
  | active text => text
  | quoted text => protectGlobs text true

def points : PatternPiece → List Point
  | active text => (shellCodepoints text).map .active
  | quoted text => (shellCodepoints text).map (⟨·, true⟩)

end PatternPiece

def piecePoints (pieces : List PatternPiece) : List Point := pieces.flatMap PatternPiece.points

section

variable (out : Outside W) (subst : Command → ShellM W Text)

def patternPiece (n : Nat) : WordPart → ShellM W PatternPiece
  | .Literal s => return .active (bytesToStr s)
  | .SingleQuoted s => return .quoted (bytesToStr s)
  | .DoubleQuoted inner =>
    return .quoted (joinValues (← expandWordPartsInner out subst n inner true false false))
  | .Param param => return .quoted (← expandParam out subst n param)
  | part => return .quoted (joinValues (← expandWordPartsInner out subst n [part] true false false))

/-- The pieces of a pattern. -/
def patternPieces : Nat → List WordPart → ShellM W (List PatternPiece)
  | 0, _ => Process.diverge
  | _ + 1, [] => return []
  | n + 1, part :: parts => do
    let piece ← patternPiece out subst n part
    return piece :: (← patternPieces n parts)

theorem expandPattern_cons (n : Nat) (part : WordPart) (parts : List WordPart) :
    expandPattern out subst (n + 1) (part :: parts) = do
      let piece ← patternPiece out subst n part
      return piece.escaped ++ (← expandPattern out subst n parts) := by
  cases part <;>
    simp only [expandPattern, patternPiece, PatternPiece.escaped, bind_assoc, pure_bind]

/-- **`expand_pattern` writes the pieces of the pattern.** -/
theorem expandPattern_pieces (n : Nat) (parts : List WordPart) :
    expandPattern out subst n parts =
      (fun pieces => pieces.flatMap PatternPiece.escaped) <$> patternPieces out subst n parts := by
  induction n generalizing parts with
  | zero =>
    rw [expandPattern, patternPieces]
    rfl
  | succ n ih =>
    cases parts with
    | nil =>
      rw [expandPattern, patternPieces]
      rfl
    | cons part parts =>
      rw [expandPattern_cons, patternPieces]
      simp only [ih, map_eq_pure_bind, bind_assoc, pure_bind, flatMap_cons]

end

theorem returns_patternPieces
    (hsubst : ∀ cmd, Returns IsShellText (subst cmd)) (n : Nat) (parts : List WordPart) :
    Returns (fun pieces => ∀ piece ∈ pieces, IsShellText piece.text)
      (patternPieces out subst n parts) := by
  have hpiece : ∀ n part, Returns (fun piece => IsShellText piece.text)
      (patternPiece out subst n part) := by
    intro n part
    have ih := expandsToText out hsubst n
    cases part with
    | Literal s => exact .pure (.bytesToStr s)
    | SingleQuoted s => exact .pure (.bytesToStr s)
    | DoubleQuoted inner => exact .andThen (ih.inner inner _ _) fun _ h => .pure h.join
    | Param param => exact .andThen (ih.param param) fun _ h => .pure h
    | CmdSubst cmd | Backtick cmd | Arith inner | Tilde user =>
      exact .andThen (ih.inner _ _ _) fun _ h => .pure h.join
  induction n generalizing parts with
  | zero => exact .diverge
  | succ n ih =>
    cases parts with
    | nil =>
      rw [patternPieces]
      exact .pure nofun
    | cons part parts =>
      rw [patternPieces]
      refine .andThen (hpiece n part) fun piece h => .andThen (ih parts) fun pieces hrest => ?_
      exact .pure (forall_mem_cons.mpr ⟨h, hrest⟩)

/-! ## Their units -/

def SLASH : Nat := '/'.toNat

/-- The codes that pathname expansion guards. -/
def guardsPath (c : Nat) : Bool := c != SLASH

theorem isSpecialCode_char (c : Char) :
    isSpecialCode c.toNat = ['*', '?', '[', ']', '\\', '!'].contains c := by
  have hchar : ∀ d : Char, (c.toNat == d.toNat) = (c == d) := fun d => by
    rw [Bool.eq_iff_iff, beq_iff_eq, beq_iff_eq, Char.toNat_inj]
  simp only [isSpecialCode, STAR, QUESTION, OPEN, CLOSE, BACKSLASH, BANG, hchar,
    contains_cons, contains_nil, Bool.or_false, Bool.or_assoc]

/-- How a quoted unit is written. -/
def guardedUnit (guards : Nat → Bool) (u : ShellUnit) : List GlobUnit :=
  if guards u.codepoint then [.marker, .unit u] else [.unit u]

theorem ascii_of_special (h : ['*', '?', '[', ']', '\\', '!'].contains c = true) :
    c.toNat < 128 := by
  have hall : ['*', '?', '[', ']', '\\', '!'].all (fun d => d.toNat < 128) = true := rfl
  exact of_decide_eq_true (all_eq_true.mp hall c (contains_iff_mem.mp h))

theorem text_char_cases (c : Char) :
    (ShellUnit.char c).text = [c] ∨
      ((ShellUnit.char c).text = [ESCAPE, c] ∧ ¬ c.toNat < 128) := by
  by_cases h : (ShellUnit.char c).text = [c]
  · exact .inl h
  · refine .inr ⟨?_, fun hascii => h (IsShellText.text_of_ascii hascii)⟩
    rw [ShellUnit.text, pushText, flatMap_cons, flatMap_nil, append_nil] at h ⊢
    split
    · rfl
    · rename_i hplain
      exact absurd (if_neg hplain) h

theorem escapePattern_unit (u : ShellUnit) :
    escapePattern u.text = globText (guardedUnit isSpecialCode u) := by
  have hbare : ∀ text : Text, (∀ c ∈ text, ['*', '?', '[', ']', '\\', '!'].contains c = false) →
      escapePattern text = text := by
    intro text h
    induction text with
    | nil => rfl
    | cons c text ih =>
      rw [escapePattern, flatMap_cons, ← escapePattern,
        ih fun d hd => h d (mem_cons_of_mem c hd), h c mem_cons_self,
        if_neg (by decide)]
      rfl
  cases u with
  | char c =>
    rw [guardedUnit, show (ShellUnit.char c).codepoint = c.toNat from rfl, isSpecialCode_char]
    rcases text_char_cases c with htext | ⟨htext, hascii⟩
    · cases hspecial : ['*', '?', '[', ']', '\\', '!'].contains c with
      | true =>
        rw [htext, escapePattern, flatMap_cons, hspecial, if_pos rfl, if_pos rfl]
        simp [globText, GlobUnit.text, htext]
      | false =>
        rw [if_neg (by decide), htext, hbare [c] (by simpa using hspecial)]
        simp [globText, GlobUnit.text, htext]
    · have hspecial : ['*', '?', '[', ']', '\\', '!'].contains c = false :=
        Bool.eq_false_iff.mpr fun h => hascii (ascii_of_special h)
      rw [hspecial, if_neg (by decide), htext, hbare [ESCAPE, c]]
      · simp [globText, GlobUnit.text, htext]
      · intro d hd
        rcases mem_pair.mp hd with rfl | rfl
        · decide
        · exact hspecial
  | byte b high =>
    have hcode : isSpecialCode (ShellUnit.byte b high).codepoint = false := by
      have hlt : ∀ c, isSpecialCode c = true → c < 128 := by
        intro c hc
        simp only [isSpecialCode, Bool.or_eq_true, beq_iff_eq] at hc
        rcases hc with ((((rfl | rfl) | rfl) | rfl) | rfl) | rfl <;> decide
      refine Bool.eq_false_iff.mpr fun h => absurd (hlt _ h) ?_
      rw [ShellUnit.codepoint]
      omega
    rw [guardedUnit, hcode, if_neg (by decide), hbare]
    · simp [globText, GlobUnit.text]
    · intro c hc
      refine Bool.eq_false_iff.mpr fun h => absurd (ascii_of_special h) ?_
      rw [mem_singleton.mp hc, toNat_rawMark, PUA_BASE]
      omega

theorem protectGlobs_unit (u : ShellUnit) :
    (if u.text = ['/'] then u.text else CTLESC :: u.text) = globText (guardedUnit guardsPath u) := by
  have hslash : u.text = ['/'] ↔ guardsPath u.codepoint = false := by
    rw [guardsPath, bne_eq_false_iff_eq]
    constructor
    · intro h
      have hcode := (GlobUnit.unit u).shellCodepoint_text
      rw [GlobUnit.text, h] at hcode
      exact hcode.symm
    · intro h
      have hu : u = .char '/' := ShellUnit.codepoint_injective h
      rw [hu]
      exact IsShellText.text_of_ascii (by decide)
  rw [guardedUnit]
  by_cases h : u.text = ['/']
  · rw [if_pos h, hslash.mp h, if_neg (by decide)]
    simp [globText, GlobUnit.text]
  · have hguards : guardsPath u.codepoint = true := by
      rw [← Bool.not_eq_false]
      exact fun hfalse => h (hslash.mpr hfalse)
    rw [if_neg h, if_pos hguards]
    simp [globText, GlobUnit.text]

theorem escapePattern_units (us : List ShellUnit) :
    escapePattern (us.flatMap ShellUnit.text) = globText (us.flatMap (guardedUnit isSpecialCode)) := by
  induction us with
  | nil => rfl
  | cons u us ih =>
    rw [flatMap_cons, flatMap_cons, escapePattern, flatMap_append, ← escapePattern,
      ← escapePattern, ih, escapePattern_unit, globText, globText, globText, flatMap_append]

theorem protectGlobs_units (us : List ShellUnit) :
    protectGlobs (us.flatMap ShellUnit.text) true = globText (us.flatMap (guardedUnit guardsPath)) := by
  rw [protectGlobs, if_pos rfl, shellChars_units]
  induction us with
  | nil => rfl
  | cons u us ih =>
    rw [map_cons, flatMap_cons, flatMap_cons, ih, protectGlobs_unit, globText,
      globText, globText, flatMap_append]

theorem globPoints_guarded (guards : Nat → Bool) (us : List ShellUnit) :
    globPoints (us.flatMap (guardedUnit guards)) =
      writtenPoints guards ((us.map ShellUnit.codepoint).map (⟨·, true⟩)) := by
  induction us with
  | nil => rfl
  | cons u us ih =>
    rw [flatMap_cons, globPoints, map_append, ← globPoints, ← globPoints, ih,
      map_cons, map_cons, writtenPoints, writtenPoints, flatMap_cons,
      Point.written, guardedUnit, Bool.true_and]
    split <;> rfl

theorem writtenPoints_active (guards : Nat → Bool) (codes : List Nat) :
    writtenPoints guards (codes.map .active) = codes := by
  induction codes with
  | nil => rfl
  | cons c codes ih =>
    rw [map_cons, writtenPoints, flatMap_cons, ← writtenPoints, ih]
    rfl

/-- What is written for a piece, by its units. -/
structure WritesPiece (guards : Nat → Bool) (write : PatternPiece → Text) : Prop where
  units : ∀ piece, IsShellText piece.text → ∃ units, write piece = globText units ∧
    globPoints units = writtenPoints guards piece.points

theorem writesPiece_of_units
    (hactive : ∀ text, write (.active text) = text)
    (hquoted : ∀ us : List ShellUnit, write (.quoted (us.flatMap ShellUnit.text)) =
      globText (us.flatMap (guardedUnit guards))) : WritesPiece guards write := by
  refine ⟨fun piece h => ?_⟩
  cases piece with
  | active text =>
    obtain ⟨us, rfl⟩ := h
    have htext : globText (us.map .unit) = us.flatMap ShellUnit.text := by
      rw [globText, flatMap_map]
      rfl
    refine ⟨us.map .unit, (hactive _).trans htext.symm, ?_⟩
    rw [PatternPiece.points, shellCodepoints_units, writtenPoints_active, globPoints,
      map_map]
    rfl
  | quoted text =>
    obtain ⟨us, rfl⟩ := h
    refine ⟨_, hquoted us, ?_⟩
    rw [globPoints_guarded, PatternPiece.points, shellCodepoints_units]

theorem writesPiece_escaped : WritesPiece isSpecialCode PatternPiece.escaped :=
  writesPiece_of_units (fun _ => rfl) escapePattern_units

theorem writesPiece_guarded : WritesPiece guardsPath PatternPiece.guarded :=
  writesPiece_of_units (fun _ => rfl) protectGlobs_units

theorem WritesPiece.codepoints
    (h : WritesPiece guards write)
    (hpieces : ∀ piece ∈ pieces, IsShellText piece.text) :
    shellCodepoints (pieces.flatMap write) = writtenPoints guards (piecePoints pieces) := by
  have hunits : ∃ units, pieces.flatMap write = globText units ∧
      globPoints units = writtenPoints guards (piecePoints pieces) := by
    induction pieces with
    | nil => exact ⟨[], rfl, rfl⟩
    | cons piece pieces ih =>
      obtain ⟨units, htext, hpoints⟩ := h.units piece (hpieces piece mem_cons_self)
      obtain ⟨rest, hrest, hrestPoints⟩ :=
        ih fun p hp => hpieces p (mem_cons_of_mem piece hp)
      refine ⟨units ++ rest, ?_, ?_⟩
      · rw [flatMap_cons, htext, hrest, globText, globText, globText, flatMap_append]
      · rw [globPoints, map_append, ← globPoints, ← globPoints, hpoints, hrestPoints]
        exact flatMap_append.symm
  obtain ⟨units, htext, hpoints⟩ := hunits
  rw [htext, shellCodepoints_globText, hpoints]

theorem spelled_piecePoints
    (hpieces : ∀ piece ∈ pieces, IsShellText piece.text) : Spelled (piecePoints pieces) := by
  intro p hp
  obtain ⟨piece, hpiece, hp⟩ := mem_flatMap.mp hp
  obtain ⟨us, htext⟩ := hpieces piece hpiece
  have hcode : ∃ u : ShellUnit, u.codepoint = p.code := by
    cases piece with
    | active text | quoted text =>
      rw [PatternPiece.text] at htext
      rw [PatternPiece.points, htext, shellCodepoints_units, map_map] at hp
      obtain ⟨u, -, rfl⟩ := mem_map.mp hp
      exact ⟨u, rfl⟩
  obtain ⟨u, hu⟩ := hcode
  rw [← hu]
  exact u.codepoint_ne_globEscape

/-! ## Quoted text is literal -/

/-- The pattern is read with each quoted unit as itself, as it is in pathname expansion,
so it stands for the same strings. -/
structure QuotedIsLiteral (pieces : List PatternPiece) (pattern : Text) : Prop where
  itself : readPattern (shellCodepoints pattern) = readPoints (piecePoints pieces)
  alike : readPattern (shellCodepoints (pieces.flatMap PatternPiece.guarded)) =
    readPattern (shellCodepoints pattern)
  denotes : ∀ string, fnmatchShell pattern string =
    fnmatchShell (pieces.flatMap PatternPiece.guarded) string

/-- No quoted dash makes a range, and no backslash that is active stands before quoted
text. -/
def ReadsQuoted (points : List Point) : Prop :=
  pointsKept isSpecialCode points = true ∧ pointsKept guardsPath points = true

theorem guardsSpecial_isSpecialCode : GuardsSpecial isSpecialCode := fun _ h => h

theorem guardsSpecial_guardsPath : GuardsSpecial guardsPath := by
  intro c hc
  rw [guardsPath, bne_iff_ne]
  rintro rfl
  exact absurd hc (by decide)

theorem fnmatchShell_congr {pattern pattern' : Text}
    (h : readPattern (shellCodepoints pattern) = readPattern (shellCodepoints pattern'))
    (string : Text) : fnmatchShell pattern string = fnmatchShell pattern' string := by
  rw [Bool.eq_iff_iff, fnmatchShell, fnmatchShell, fnmatchInner_reads, fnmatchInner_reads, h]

/-- **Quoted text in a pattern is literal exactly when its units are read as themselves**
where they are written with the guards of `expand_pattern`, and with those of pathname
expansion. -/
theorem quoted_text_is_literal (out : Outside W) (eval : Command → ShellM W ExitStatus) (n : Nat)
    (parts : List WordPart) (s t : Machine W) (pieces : List PatternPiece)
    (h : patternPieces out (commandSubst out eval) n parts s = some (.ok pieces, t)) :
    ∃ pattern, expandPattern out (commandSubst out eval) n parts s = some (.ok pattern, t) ∧
      (QuotedIsLiteral pieces pattern ↔ ReadsQuoted (piecePoints pieces)) := by
  have hpieces : ∀ piece ∈ pieces, IsShellText piece.text :=
    returns_patternPieces out (returns_commandSubst out eval) n parts s pieces t h
  have hspelled := spelled_piecePoints hpieces
  have hitself : readPattern (shellCodepoints (pieces.flatMap PatternPiece.escaped)) =
      readPoints (piecePoints pieces) ↔ pointsKept isSpecialCode (piecePoints pieces) = true := by
    rw [writesPiece_escaped.codepoints hpieces]
    exact readPoints_written guardsSpecial_isSpecialCode _ hspelled
  have hpath : readPattern (shellCodepoints (pieces.flatMap PatternPiece.guarded)) =
      readPoints (piecePoints pieces) ↔ pointsKept guardsPath (piecePoints pieces) = true := by
    rw [writesPiece_guarded.codepoints hpieces]
    exact readPoints_written guardsSpecial_guardsPath _ hspelled
  refine ⟨pieces.flatMap PatternPiece.escaped, ?_, ?_⟩
  · rw [expandPattern_pieces, map_eq_pure_bind, Process.bind_ok h]
    rfl
  · constructor
    · intro hliteral
      exact ⟨hitself.mp hliteral.itself, hpath.mp (hliteral.alike.trans hliteral.itself)⟩
    · rintro ⟨hkept, hpathKept⟩
      have halike := (hpath.mpr hpathKept).trans (hitself.mpr hkept).symm
      exact ⟨hitself.mpr hkept, halike, fnmatchShell_congr halike.symm⟩

/-- The parts of a bracket expression with one quoted unit. -/
def bracketParts (left middle right : Text) : List WordPart :=
  [.Literal (ShellBytes.ofText left), .SingleQuoted (ShellBytes.ofText middle),
    .Literal (ShellBytes.ofText right)]

def bracketPieces (left middle right : Text) : List PatternPiece :=
  [.active left, .quoted middle, .active right]

/-- A quoted bracket does not close the expression. -/
theorem quoted_text_is_literal_bracket :
    ∃ pattern, expandPattern Outside.idle (commandSubst Outside.idle fun _ => pure .SUCCESS) 4
        (bracketParts ['[', 'a'] [']'] ['z', ']']) Machine.idle = some (.ok pattern, Machine.idle) ∧
      QuotedIsLiteral (bracketPieces ['[', 'a'] [']'] ['z', ']']) pattern := by
  have hpieces : patternPieces Outside.idle (commandSubst Outside.idle fun _ => pure .SUCCESS) 4
      (bracketParts ['[', 'a'] [']'] ['z', ']']) Machine.idle =
        some (.ok (bracketPieces ['[', 'a'] [']'] ['z', ']']), Machine.idle) := rfl
  obtain ⟨pattern, hpattern, hliteral⟩ := quoted_text_is_literal Outside.idle
    (fun _ => pure .SUCCESS) 4 _ Machine.idle Machine.idle _ hpieces
  have hreads : ReadsQuoted (piecePoints (bracketPieces ['[', 'a'] [']'] ['z', ']'])) :=
    ⟨by decide +kernel, by decide +kernel⟩
  exact ⟨pattern, hpattern, hliteral.mpr hreads⟩

/-- **A quoted dash makes a range**: `[a'-'z]` matches `b`. -/
theorem quoted_dash_makes_range :
    expandPattern Outside.idle (commandSubst Outside.idle fun _ => pure .SUCCESS) 4
        (bracketParts ['[', 'a'] ['-'] ['z', ']']) Machine.idle =
      some (.ok "[a-z]".toList, Machine.idle) ∧
    fnmatchShell "[a-z]".toList ['b'] = true ∧
    fnmatchShell ((bracketPieces ['[', 'a'] ['-'] ['z', ']']).flatMap PatternPiece.guarded) ['b'] =
      false ∧
    ¬ QuotedIsLiteral (bracketPieces ['[', 'a'] ['-'] ['z', ']']) "[a-z]".toList := by
  have hmatches : fnmatchShell "[a-z]".toList ['b'] = true := by decide +kernel
  have hguarded : fnmatchShell ((bracketPieces ['[', 'a'] ['-'] ['z', ']']).flatMap
      PatternPiece.guarded) ['b'] = false := by decide +kernel
  refine ⟨rfl, hmatches, hguarded, fun hliteral => ?_⟩
  have hsame := hliteral.denotes ['b']
  rw [hmatches, hguarded] at hsame
  cases hsame

end Ish.Epsh
