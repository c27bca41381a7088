import Ish.Epsh.Shell

/-!
# Matching file names and words

The model of `crates/epsh/src/glob.rs`: what of a pattern is active, the text of a
pattern without active characters, and `fnmatch_inner` on the rest of the pattern and
of the string, in place of its indices.
-/

namespace Ish.Epsh

open Ish.Lib

variable {W : Type}

/-! ## Pattern text -/

def hasGlobCharsUnits : List Text → Bool
  | [] => false
  | unit :: units =>
    match unit with
    | [] => hasGlobCharsUnits units  -- `unwrap` of an empty unit: `shellChars` yields none
    | c :: _ =>
      if c = ESCAPE then hasGlobCharsUnits units
      else if c = '*' ∨ c = '?' ∨ c = '[' then true
      else if unit = [CTLESC] ∨ c = '\\' then
        match units with
        | [] => false
        | _ :: units => hasGlobCharsUnits units
      else hasGlobCharsUnits units

/-- `has_glob_chars_shell` -/
def hasGlobCharsShell (s : Text) : Bool := hasGlobCharsUnits (shellChars s)

def literalUnits : List Text → Text
  | [] => []
  | unit :: units =>
    if unit = [CTLESC] ∨ unit = ['\\'] then
      match units with
      | [] => unit
      | next :: units => next ++ literalUnits units
    else unit ++ literalUnits units

/-- `literal_component` -/
def literalComponent (pattern : Text) : Text := literalUnits (shellChars pattern)

def componentStartsWithDot (pattern : Text) : Bool :=
  match shellChars pattern with
  | unit :: units =>
    if unit = [CTLESC] ∨ unit = ['\\'] then units.head? == some ['.'] else unit == ['.']
  | [] => false

/-! ## Matching -/

def STAR : Nat := '*'.toNat
def QUESTION : Nat := '?'.toNat
def OPEN : Nat := '['.toNat
def CLOSE : Nat := ']'.toNat
def BANG : Nat := '!'.toNat
def DASH : Nat := '-'.toNat
def BACKSLASH : Nat := '\\'.toNat

/-- `is_escape` -/
def isEscape (c : Nat) : Bool := c == BACKSLASH || c == GLOB_ESCAPE

/-- `read_bracket_char`, at the unit `c`. -/
def readBracketChar (c : Nat) (pat : List Nat) : Nat × List Nat :=
  match pat with
  | [] => (c, [])
  | next :: rest => if isEscape c then (next, rest) else (c, next :: rest)

theorem length_readBracketChar_le (c : Nat) (pat : List Nat) :
    (readBracketChar c pat).2.length ≤ pat.length := by
  unfold readBracketChar
  split
  · exact Nat.le_refl _
  · split
    · exact Nat.le_succ _
    · exact Nat.le_refl _

/-- A member of a bracket expression. -/
inductive Member where
  | unit (c : Nat)
  | range (lo hi : Nat)
deriving DecidableEq

def Member.lists (u : Nat) : Member → Bool
  | .unit c => u == c
  | .range lo hi => decide (lo ≤ u) && decide (u ≤ hi)

/-- The member at `c`, and the pattern behind it. -/
def readMember (c : Nat) (pat : List Nat) : Member × List Nat :=
  match readBracketChar c pat with
  | (c1, dash :: next :: tail) =>
    if dash = DASH ∧ next ≠ CLOSE then
      (.range c1 (readBracketChar next tail).1, (readBracketChar next tail).2)
    else (.unit c1, dash :: next :: tail)
  | (c1, tail) => (.unit c1, tail)

theorem length_readMember_le (c : Nat) (pat : List Nat) :
    (readMember c pat).2.length ≤ pat.length := by
  have hread := length_readBracketChar_le c pat
  unfold readMember
  split
  · rename_i heq
    rw [heq] at hread
    split
    · rename_i next tail _
      have hnext := length_readBracketChar_le next tail
      simp only [List.length_cons] at hread
      dsimp only
      omega
    · exact hread
  · rename_i heq
    rw [heq] at hread
    exact hread

/-- The members of a bracket expression, up to the bracket that closes it: whether
`unit` is one of them, and the pattern from there on. `first` is at `bracket_start`. -/
def scanBracket (unit : Nat) (first matched : Bool) (pat : List Nat) : Bool × List Nat :=
  match pat with
  | [] => (matched, [])
  | c :: rest =>
    if c = CLOSE ∧ first = false then (matched, c :: rest)
    else
      scanBracket unit false (matched || (readMember c rest).1.lists unit) (readMember c rest).2
termination_by pat.length
decreasing_by
  exact Nat.lt_succ_of_le (length_readMember_le c rest)

theorem length_scanBracket_le (unit : Nat) (first matched : Bool) (pat : List Nat) :
    (scanBracket unit first matched pat).2.length ≤ pat.length := by
  induction first, matched, pat using scanBracket.induct unit with
  | case1 => rw [scanBracket]
  | case2 first matched c rest h =>
    rw [scanBracket, if_pos h]
  | case3 first matched c rest h ih =>
    rw [scanBracket, if_neg h]
    exact Nat.le_trans ih (Nat.le_succ_of_le (length_readMember_le c rest))

/-- `fnmatch_inner` -/
def fnmatchInner (pat s : List Nat) : Bool :=
  match pat with
  | [] => s.isEmpty
  | c :: rest =>
    if c = QUESTION then
      match s with
      | [] => false
      | _ :: s => fnmatchInner rest s
    else if c = STAR then
      if (rest.dropWhile (· == STAR)).isEmpty then true
      else s.tails.any fun s => fnmatchInner (rest.dropWhile (· == STAR)) s
    else if c = OPEN then
      match s with
      | [] => false
      | unit :: s =>
        let negate := rest.head? == some BANG
        let scanned := scanBracket unit true false (if negate then rest.tail else rest)
        if scanned.1 = negate then false else fnmatchInner scanned.2.tail s
    else if isEscape c then
      match rest with
      | [] => false
      | d :: rest =>
        match s with
        | [] => false
        | unit :: s => if unit = d then fnmatchInner rest s else false
    else
      match s with
      | [] => false
      | unit :: s => if unit = c then fnmatchInner rest s else false
termination_by pat.length
decreasing_by
  · exact Nat.lt_succ_self _
  · exact Nat.lt_succ_of_le (List.dropWhile_suffix _).length_le
  · refine Nat.lt_succ_of_le ?_
    rw [List.length_tail]
    refine Nat.le_trans (Nat.sub_le _ 1) (Nat.le_trans (length_scanBracket_le _ _ _ _) ?_)
    split
    · rw [List.length_tail]
      exact Nat.sub_le _ 1
    · exact Nat.le_refl _
  · simp only [List.length_cons]
    omega
  · exact Nat.lt_succ_self _

/-- `fnmatch_shell` -/
def fnmatchShell (pattern string : Text) : Bool :=
  fnmatchInner (shellCodepoints pattern) (shellCodepoints string)

end Ish.Epsh
