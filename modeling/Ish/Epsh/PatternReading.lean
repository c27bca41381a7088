import Ish.Epsh.PatternElements

/-!
# How a pattern is read

A pattern as units that are active or quoted, and its reading as elements: a quoted unit
stands for itself wherever it stands. `fnmatch_inner` reads a pattern of active units, in
which a quoted unit is written with an escape in front of it, or without one where its
code is thought to be harmless. When that writing keeps the reading is decided below.
-/

namespace Ish.Epsh

open List

/-! ## Readings -/

/-- A unit of a pattern. -/
structure Point where
  code : Nat
  quoted : Bool
deriving DecidableEq

namespace Point

def active (c : Nat) : Point := ⟨c, false⟩

/-- Whether `p` is the active unit `c`. -/
def is (p : Point) (c : Nat) : Bool := !p.quoted && p.code == c

def escapes (p : Point) : Bool := !p.quoted && isEscape p.code

end Point

/-- A unit of a bracket expression, at `p`. -/
def pointChar (p : Point) : List Point → Nat × List Point
  | [] => (p.code, [])
  | next :: rest => if p.escapes then (next.code, rest) else (p.code, next :: rest)

/-- The member of a bracket expression whose first unit has been read. -/
def memberFrom (c1 : Nat) : List Point → Member × List Point
  | dash :: next :: tail =>
    if dash.is DASH && !next.is CLOSE then
      (.range c1 (pointChar next tail).1, (pointChar next tail).2)
    else (.unit c1, dash :: next :: tail)
  | tail => (.unit c1, tail)

theorem memberFrom_cons (c1 : Nat) (dash next : Point) (tail : List Point) :
    memberFrom c1 (dash :: next :: tail) =
      if dash.is DASH && !next.is CLOSE then
        (.range c1 (pointChar next tail).1, (pointChar next tail).2)
      else (.unit c1, dash :: next :: tail) := rfl

def pointMember (p : Point) (points : List Point) : Member × List Point :=
  memberFrom (pointChar p points).1 (pointChar p points).2

theorem pointChar_suffix (p : Point) (points : List Point) : (pointChar p points).2 <:+ points := by
  cases points with
  | nil => exact suffix_refl _
  | cons next rest =>
    rw [pointChar]
    split
    · exact suffix_cons next rest
    · exact suffix_refl _

theorem memberFrom_suffix (c1 : Nat) (points : List Point) : (memberFrom c1 points).2 <:+ points := by
  rcases points with _ | ⟨dash, _ | ⟨next, tail⟩⟩
  · exact suffix_refl _
  · exact suffix_refl _
  · rw [memberFrom_cons]
    split
    · exact (pointChar_suffix next tail).trans
        ((suffix_cons next tail).trans (suffix_cons dash _))
    · exact suffix_refl _

theorem pointMember_suffix (p : Point) (points : List Point) :
    (pointMember p points).2 <:+ points :=
  (memberFrom_suffix _ _).trans (pointChar_suffix p points)

/-- The members of a bracket expression, and the bracket that closes it with what follows;
one that is not closed goes on to the end. -/
def pointMembers (first : Bool) (points : List Point) : List Member × List Point :=
  match points with
  | [] => ([], [])
  | p :: rest =>
    if p.is CLOSE && !first then ([], p :: rest)
    else
      ((pointMember p rest).1 :: (pointMembers false (pointMember p rest).2).1,
        (pointMembers false (pointMember p rest).2).2)
termination_by points.length
decreasing_by
  all_goals exact Nat.lt_succ_of_le (pointMember_suffix p rest).length_le

theorem pointMembers_suffix (first : Bool) (points : List Point) :
    (pointMembers first points).2 <:+ points := by
  induction first, points using pointMembers.induct with
  | case1 first => rw [pointMembers]
  | case2 first p rest hclose =>
    rw [pointMembers, if_pos hclose]
  | case3 first p rest hclose ih =>
    rw [pointMembers, if_neg hclose]
    exact ih.trans ((pointMember_suffix p rest).trans (suffix_cons p rest))

/-- Whether a bracket expression is negated. -/
def negated (points : List Point) : Bool := points.head?.any (·.is BANG)

/-- A bracket expression from its first member on. -/
def bracketBody (points : List Point) : List Point :=
  if negated points then points.tail else points

theorem bracketBody_suffix (points : List Point) : bracketBody points <:+ points := by
  rw [bracketBody]
  split
  · exact tail_suffix points
  · exact suffix_refl _

/-- What follows a bracket expression. -/
def bracketRest (points : List Point) : List Point := (pointMembers true (bracketBody points)).2.tail

theorem bracketRest_suffix (points : List Point) : bracketRest points <:+ points :=
  (tail_suffix _).trans ((pointMembers_suffix _ _).trans (bracketBody_suffix points))

/-- The elements of a pattern. -/
def readPoints (points : List Point) : List Element :=
  match points with
  | [] => []
  | p :: rest =>
    if p.is QUESTION then .one :: readPoints rest
    else if p.is STAR then .any :: readPoints rest
    else if p.is OPEN then
      .bracket (negated rest) (pointMembers true (bracketBody rest)).1 ::
        readPoints (bracketRest rest)
    else if p.escapes then
      match rest with
      | [] => [.trailing p.code]
      | next :: rest => .unit next.code :: readPoints rest
    else .unit p.code :: readPoints rest
termination_by points.length
decreasing_by
  · exact Nat.lt_succ_self _
  · exact Nat.lt_succ_self _
  · exact Nat.lt_succ_of_le (bracketRest_suffix rest).length_le
  · simp only [length_cons]
    omega
  · exact Nat.lt_succ_self _

/-- The reading of a pattern all of whose units are active. -/
def readPattern (pat : List Nat) : List Element := readPoints (pat.map .active)

/-! ## Matching by the reading -/

@[simp] theorem Point.is_active (c d : Nat) : (Point.active c).is d = (c == d) := rfl

@[simp] theorem Point.escapes_active (c : Nat) : (Point.active c).escapes = isEscape c := rfl

theorem pointChar_active (c : Nat) (pat : List Nat) :
    pointChar (.active c) (pat.map .active) =
      ((readBracketChar c pat).1, (readBracketChar c pat).2.map .active) := by
  cases pat with
  | nil => rfl
  | cons next rest =>
    rw [map_cons, pointChar, readBracketChar, Point.escapes_active]
    split <;> rfl

theorem pointMember_active (c : Nat) (pat : List Nat) :
    pointMember (.active c) (pat.map .active) =
      ((readMember c pat).1, (readMember c pat).2.map .active) := by
  rw [pointMember, pointChar_active, readMember]
  obtain ⟨c1, tail⟩ := readBracketChar c pat
  rcases tail with _ | ⟨dash, _ | ⟨next, tail⟩⟩
  · rfl
  · rfl
  · dsimp only
    rw [map_cons, map_cons, memberFrom_cons, pointChar_active, Point.is_active, Point.is_active]
    by_cases hrange : dash = DASH ∧ next ≠ CLOSE
    · rw [if_pos hrange, if_pos]
      simp [hrange]
    · rw [if_neg hrange, if_neg]
      · rfl
      · simpa using hrange

/-- **The scan of a bracket expression is a reading of its members.** -/
theorem scanBracket_reads (u : Nat) (first matched : Bool) (pat : List Nat) :
    (scanBracket u first matched pat).1 =
        (matched || listedIn u (pointMembers first (pat.map .active)).1) ∧
      (scanBracket u first matched pat).2.map .active =
        (pointMembers first (pat.map .active)).2 := by
  induction first, matched, pat using scanBracket.induct u with
  | case1 first matched =>
    rw [scanBracket, map_nil, pointMembers]
    exact ⟨(Bool.or_false matched).symm, rfl⟩
  | case2 first matched c rest hclose =>
    rw [scanBracket, if_pos hclose, map_cons, pointMembers, if_pos (by simp [hclose])]
    exact ⟨(Bool.or_false matched).symm, rfl⟩
  | case3 first matched c rest hclose ih =>
    have hopen : ¬ ((Point.active c).is CLOSE && !first) = true := by simpa using hclose
    rw [scanBracket, if_neg hclose, map_cons, pointMembers, if_neg hopen,
      pointMember_active]
    refine ⟨ih.1.trans ?_, ih.2⟩
    rw [Bool.or_assoc]
    rfl

theorem bracketBody_active (pat : List Nat) :
    negated (pat.map .active) = (pat.head? == some BANG) ∧
      bracketBody (pat.map .active) =
        (if pat.head? == some BANG then pat.tail else pat).map .active := by
  have hnegated : negated (pat.map .active) = (pat.head? == some BANG) := by
    cases pat <;> rfl
  refine ⟨hnegated, ?_⟩
  rw [bracketBody, hnegated]
  split
  · rw [map_tail]
  · rfl

theorem readPattern_cons (c : Nat) (rest : List Nat) :
    readPattern (c :: rest) =
      if c == QUESTION then .one :: readPattern rest
      else if c == STAR then .any :: readPattern rest
      else if c == OPEN then
        .bracket (negated (rest.map .active)) (pointMembers true (bracketBody (rest.map .active))).1 ::
          readPoints (bracketRest (rest.map .active))
      else if isEscape c then
        match rest with
        | [] => [.trailing c]
        | next :: rest => .unit next :: readPattern rest
      else .unit c :: readPattern rest := by
  rw [readPattern, map_cons, readPoints.eq_def]
  cases rest <;> rfl

/-- A reading without a dangling escape whose language has a string. -/
def ReadMatches (elements : List Element) (s : List Nat) : Prop :=
  ¬ Dangling elements ∧ s ∈ languageOf elements

theorem dangling_cons (he : e.isTrailing = false) :
    Dangling (e :: elements) ↔ Dangling elements := by
  constructor
  · rintro ⟨c, hc⟩
    rcases mem_cons.mp hc with rfl | hc
    · cases he
    · exact ⟨c, hc⟩
  · rintro ⟨c, hc⟩
    exact ⟨c, mem_cons_of_mem e hc⟩

theorem readMatches_any :
    ReadMatches (.any :: elements) s ↔ ∃ tail, tail <:+ s ∧ ReadMatches elements tail := by
  rw [ReadMatches, dangling_cons rfl, mem_languageOf_any]
  constructor
  · rintro ⟨hdangling, tail, htail, hmem⟩
    exact ⟨tail, htail, hdangling, hmem⟩
  · rintro ⟨tail, htail, hdangling, hmem⟩
    exact ⟨hdangling, tail, htail, hmem⟩

theorem readMatches_single {e : Element} (htrailing : e.isTrailing = false) {p : Nat → Prop}
    (he : ∀ piece, piece ∈ e.language ↔ ∃ u, piece = [u] ∧ p u) :
    ReadMatches (e :: elements) s ↔ ∃ u tail, s = u :: tail ∧ p u ∧ ReadMatches elements tail := by
  rw [ReadMatches, dangling_cons htrailing, mem_languageOf_single he]
  constructor
  · rintro ⟨hdangling, u, tail, rfl, hu, hmem⟩
    exact ⟨u, tail, rfl, hu, hdangling, hmem⟩
  · rintro ⟨u, tail, rfl, hu, hdangling, hmem⟩
    exact ⟨hdangling, u, tail, rfl, hu, hmem⟩

/-- A bracket expression, when what follows it is known to match by `p`. -/
theorem fnmatchInner_opened {p : List Nat → Prop}
    (hafter : ∀ after, after.map Point.active = bracketRest (pat.map .active) →
      ∀ s, fnmatchInner after s = true ↔ p s) (s : List Nat) :
    fnmatchInner (OPEN :: pat) s = true ↔ ∃ u tail, s = u :: tail ∧
      listedIn u (pointMembers true (bracketBody (pat.map .active))).1 =
        !negated (pat.map .active) ∧ p tail := by
  cases s with
  | nil =>
    rw [fnmatchInner_open_nil]
    exact ⟨nofun, nofun⟩
  | cons u s =>
    obtain ⟨hnegated, hbody⟩ := bracketBody_active pat
    obtain ⟨hscan, hrest⟩ := scanBracket_reads u true false
      (if pat.head? == some BANG then pat.tail else pat)
    rw [← hbody] at hscan hrest
    have hnext := hafter _ (by rw [map_tail, hrest, bracketRest]) s
    rw [fnmatchInner_open, hnegated]
    dsimp only
    rw [hscan, Bool.false_or]
    constructor
    · intro h
      split at h
      · cases h
      · rename_i hne
        exact ⟨u, s, rfl, Bool.eq_not_of_ne hne, hnext.mp h⟩
    · rintro ⟨_, _, heq, hlisted, h⟩
      obtain ⟨rfl, rfl⟩ := List.cons.inj heq
      rw [if_neg]
      · exact hnext.mpr h
      · rw [hlisted]
        exact Bool.not_ne_self _

/-- **`fnmatch_inner` matches by the reading of its pattern.** -/
theorem fnmatchInner_reads (pat s : List Nat) :
    fnmatchInner pat s = true ↔ ReadMatches (readPattern pat) s := by
  induction hlength : pat.length using Nat.strongRecOn generalizing pat s with
  | ind n ih =>
  have hrest : ∀ rest : List Nat, rest.length < pat.length → ∀ s,
      fnmatchInner rest s = true ↔ ReadMatches (readPattern rest) s := fun rest hlt s =>
    ih rest.length (hlength ▸ hlt) rest s rfl
  clear ih hlength
  cases pat with
  | nil =>
    rw [fnmatchInner_nil, List.isEmpty_iff, readPattern, map_nil, readPoints, ReadMatches,
      mem_languageOf_nil]
    exact ⟨fun h => ⟨fun ⟨_, hc⟩ => not_mem_nil hc, h⟩, And.right⟩
  | cons c rest =>
    have hnext := hrest rest (Nat.lt_succ_self _)
    rw [readPattern_cons]
    by_cases hone : c = QUESTION
    · subst hone
      rw [if_pos (beq_self_eq_true _), readMatches_single rfl Element.one_single]
      cases s with
      | nil =>
        rw [fnmatchInner_one_nil]
        exact ⟨nofun, nofun⟩
      | cons u s =>
        rw [fnmatchInner_one, hnext]
        constructor
        · exact fun h => ⟨u, s, rfl, trivial, h⟩
        · rintro ⟨_, _, heq, -, h⟩
          obtain ⟨rfl, rfl⟩ := List.cons.inj heq
          exact h
    rw [if_neg (by simpa using hone)]
    by_cases hany : c = STAR
    · subst hany
      rw [if_pos (beq_self_eq_true _), readMatches_any, fnmatchInner_star]
      simp only [hnext]
    rw [if_neg (by simpa using hany)]
    by_cases hopen : c = OPEN
    · subst hopen
      rw [if_pos (beq_self_eq_true _), readMatches_single rfl (Element.bracket_single _ _)]
      refine fnmatchInner_opened (fun after hafter s => ?_) s
      have hlength : after.length ≤ rest.length := by
        have h := (bracketRest_suffix (rest.map .active)).length_le
        rwa [← hafter, length_map, length_map] at h
      rw [hrest after (Nat.lt_succ_of_le hlength), readPattern, hafter]
    rw [if_neg (by simpa using hopen)]
    by_cases hescape : isEscape c = true
    · rw [if_pos hescape]
      cases rest with
      | nil =>
        rw [fnmatchInner_trailing hescape]
        exact ⟨nofun, fun h => absurd ⟨c, mem_singleton_self _⟩ h.1⟩
      | cons d rest =>
        have hlast := hrest rest (by simp only [length_cons]; omega)
        rw [fnmatchInner_escaped hescape, readMatches_single rfl (Element.unit_single d)]
        simp only [hlast]
    · have hordinary : isOrdinary c = true := by
        simp [isOrdinary, hone, hany, hopen, hescape]
      rw [if_neg hescape, fnmatchInner_ordinary hordinary,
        readMatches_single rfl (Element.unit_single c)]
      simp only [hnext]

/-! ## Writing quoted units -/

/-- A unit in a pattern all of whose units are active: a quoted one has an escape in front
of it, if its code is one of `guards`. -/
def Point.written (guards : Nat → Bool) (p : Point) : List Nat :=
  if p.quoted && guards p.code then [GLOB_ESCAPE, p.code] else [p.code]

def writtenPoints (guards : Nat → Bool) (points : List Point) : List Nat :=
  points.flatMap (Point.written guards)

/-- The codes that are active on their own. -/
def isSpecialCode (c : Nat) : Bool :=
  c == STAR || c == QUESTION || c == OPEN || c == CLOSE || c == BACKSLASH || c == BANG

/-! ### Whether the reading is kept -/

section

variable (guards : Nat → Bool)

/-- The unit at `p` of a bracket expression does not escape a quoted unit that has an
escape of its own. -/
def charKept (p : Point) : List Point → Bool
  | [] => true
  | next :: _ => !(p.escapes && next.quoted && guards next.code)

/-- Behind a unit, no dash that is quoted makes a range. -/
def rangeKept : List Point → Bool
  | dash :: next :: tail =>
    if dash.code == DASH && !next.is CLOSE then
      if dash.quoted then guards DASH else charKept guards next tail
    else true
  | _ => true

def memberKept (p : Point) (points : List Point) : Bool :=
  charKept guards p points && rangeKept guards (pointChar p points).2

def membersKept (first : Bool) (points : List Point) : Bool :=
  match points with
  | [] => true
  | p :: rest =>
    if p.is CLOSE && !first then true
    else memberKept guards p rest && membersKept false (pointMember p rest).2
termination_by points.length
decreasing_by
  exact Nat.lt_succ_of_le (pointMember_suffix p rest).length_le

/-- In the reading of `points` no quoted dash makes a range, and no active escape stands
before a quoted unit, where their codes are not of `guards` or are of `guards`. -/
def pointsKept (points : List Point) : Bool :=
  match points with
  | [] => true
  | p :: rest =>
    if p.is OPEN then membersKept guards true (bracketBody rest) && pointsKept (bracketRest rest)
    else if p.escapes then
      match rest with
      | [] => true
      | next :: rest => !(next.quoted && guards next.code) && pointsKept rest
    else pointsKept rest
termination_by points.length
decreasing_by
  · exact Nat.lt_succ_of_le (bracketRest_suffix rest).length_le
  · simp only [length_cons]
    omega
  · exact Nat.lt_succ_self _

end

/-! ### Units -/

/-- The first code that is written for a unit. -/
def Point.mark (guards : Nat → Bool) (p : Point) : Nat :=
  if p.quoted && guards p.code then GLOB_ESCAPE else p.code

/-- The units that are written for `points`. -/
def writtenUnits (guards : Nat → Bool) (points : List Point) : List Point :=
  (writtenPoints guards points).map .active

/-- The guard before every unit that would be active. -/
def GuardsSpecial (guards : Nat → Bool) : Prop := ∀ c, isSpecialCode c = true → guards c = true

/-- The units of a pattern without escapes of its own. -/
def Spelled (points : List Point) : Prop := ∀ p ∈ points, p.code ≠ GLOB_ESCAPE

theorem Spelled.suffix (h : Spelled points) (hs : points' <:+ points) :
    Spelled points' := fun p hp => h p (hs.subset hp)

section

variable {guards : Nat → Bool} {p : Point}

theorem written_guarded (h : (p.quoted && guards p.code) = true) (rest : List Point) :
    writtenUnits guards (p :: rest) =
      .active GLOB_ESCAPE :: .active p.code :: writtenUnits guards rest := by
  rw [writtenUnits, writtenPoints, flatMap_cons, Point.written, if_pos h]
  rfl

theorem written_bare (h : (p.quoted && guards p.code) = false) (rest : List Point) :
    writtenUnits guards (p :: rest) = .active p.code :: writtenUnits guards rest := by
  rw [writtenUnits, writtenPoints, flatMap_cons, Point.written, if_neg (by rw [h]; decide)]
  rfl

theorem written_active (c : Nat) (rest : List Point) :
    writtenUnits guards (.active c :: rest) = .active c :: writtenUnits guards rest :=
  written_bare rfl rest

theorem written_cons (p : Point) (rest : List Point) :
    ∃ behind, writtenUnits guards (p :: rest) = .active (p.mark guards) :: behind := by
  cases h : p.quoted && guards p.code with
  | true => exact ⟨_, by rw [written_guarded h, Point.mark, if_pos h]⟩
  | false => exact ⟨_, by rw [written_bare h, Point.mark, if_neg (by rw [h]; decide)]⟩

theorem bare_of_active (h : p.quoted = false) : (p.quoted && guards p.code) = false := by
  rw [h, Bool.false_and]

theorem Point.quoted_of_is (h : p.is c = true) : p.quoted = false := by
  simp only [is, Bool.and_eq_true, Bool.not_eq_true'] at h
  exact h.1

theorem Point.is_mark (hguards : GuardsSpecial guards) (hc : isSpecialCode c = true)
    (p : Point) : (active (p.mark guards)).is c = p.is c := by
  have hne : GLOB_ESCAPE ≠ c := by
    rintro rfl
    exact absurd hc (by decide)
  rw [is_active, mark, is]
  cases hquoted : p.quoted with
  | false => rw [Bool.false_and, if_neg (by decide), Bool.not_false, Bool.true_and]
  | true =>
    rw [Bool.true_and, Bool.not_true, Bool.false_and, beq_eq_false_iff_ne]
    split
    · exact hne
    · rintro rfl
      exact absurd (hguards _ hc) ‹_›

theorem isEscape_bare (hguards : GuardsSpecial guards) (hp : p.code ≠ GLOB_ESCAPE)
    (hbare : (p.quoted && guards p.code) = false) : isEscape p.code = p.escapes := by
  rw [Point.escapes]
  cases hquoted : p.quoted with
  | false => rw [Bool.not_false, Bool.true_and]
  | true =>
    rw [hquoted, Bool.true_and] at hbare
    rw [Bool.not_true, Bool.false_and]
    have hback : p.code ≠ BACKSLASH := by
      intro heq
      rw [heq, hguards BACKSLASH rfl] at hbare
      cases hbare
    simp [isEscape, hp, hback]

theorem pointChar_plain (h : p.escapes = false) (points : List Point) :
    pointChar p points = (p.code, points) := by
  cases points with
  | nil => rfl
  | cons next rest => rw [pointChar, if_neg (by rw [h]; decide)]

theorem pointChar_escaped (h : p.escapes = true) (next : Point) (rest : List Point) :
    pointChar p (next :: rest) = (next.code, rest) := if_pos h

theorem Spelled.pointChar_ne (h : Spelled (p :: rest)) :
    (pointChar p rest).1 ≠ GLOB_ESCAPE := by
  cases rest with
  | nil => exact h p mem_cons_self
  | cons next rest =>
    rw [pointChar]
    split
    · exact h next (mem_cons_of_mem p mem_cons_self)
    · exact h p mem_cons_self

/-- What is written for a unit of a bracket expression is read as that unit, or as the
escape that guards it. -/
theorem pointChar_written (hguards : GuardsSpecial guards) {rest behind}
    (hspelled : Spelled (p :: rest))
    (hbehind : writtenUnits guards (p :: rest) = .active (p.mark guards) :: behind) :
    (charKept guards p rest = true ∧ pointChar (.active (p.mark guards)) behind =
        ((pointChar p rest).1, writtenUnits guards (pointChar p rest).2)) ∨
      (charKept guards p rest = false ∧
        (pointChar (.active (p.mark guards)) behind).1 = GLOB_ESCAPE) := by
  have hp := hspelled p mem_cons_self
  have hplain : p.escapes = false → charKept guards p rest = true := by
    intro h
    cases rest with
    | nil => rfl
    | cons next rest => rw [charKept, h, Bool.false_and, Bool.false_and, Bool.not_false]
  cases hguarded : p.quoted && guards p.code with
  | true =>
    have hquoted : p.escapes = false := by
      rw [Bool.and_eq_true] at hguarded
      rw [Point.escapes, hguarded.1]
      rfl
    rw [written_guarded hguarded] at hbehind
    obtain ⟨hmark, rfl⟩ := List.cons.inj hbehind
    rw [← hmark, pointChar_plain hquoted]
    exact .inl ⟨hplain hquoted, pointChar_escaped rfl _ _⟩
  | false =>
    rw [written_bare hguarded] at hbehind
    obtain ⟨hmark, rfl⟩ := List.cons.inj hbehind
    rw [← hmark]
    have hescape := isEscape_bare hguards hp hguarded
    cases hescapes : p.escapes with
    | false =>
      have hactive : (Point.active p.code).escapes = false := hescape.trans hescapes
      rw [pointChar_plain hescapes, pointChar_plain hactive]
      exact .inl ⟨hplain hescapes, rfl⟩
    | true =>
      have hactive : (Point.active p.code).escapes = true := hescape.trans hescapes
      cases rest with
      | nil => exact .inl ⟨rfl, rfl⟩
      | cons next rest =>
        rw [charKept, hescapes, Bool.true_and, pointChar_escaped hescapes]
        cases hnext : next.quoted && guards next.code with
        | true =>
          rw [written_guarded hnext, pointChar_escaped hactive]
          exact .inr ⟨rfl, rfl⟩
        | false =>
          rw [written_bare hnext, pointChar_escaped hactive]
          exact .inl ⟨rfl, rfl⟩

/-! ### Members -/

/-- The unit a member starts with. -/
def Member.low : Member → Nat
  | .unit c => c
  | .range lo _ => lo

theorem memberFrom_low (c1 : Nat) (points : List Point) : (memberFrom c1 points).1.low = c1 := by
  rcases points with _ | ⟨dash, _ | ⟨next, tail⟩⟩
  · rfl
  · rfl
  · rw [memberFrom_cons]
    split <;> rfl

theorem memberFrom_unit
    (h : ∀ next ∈ rest.head?, (dash.is DASH && !next.is CLOSE) = false) :
    memberFrom c1 (dash :: rest) = (.unit c1, dash :: rest) := by
  cases rest with
  | nil => rfl
  | cons next tail => rw [memberFrom_cons, h next rfl, if_neg (by decide)]

theorem memberFrom_range {c1 dash next tail}
    (h : (dash.is DASH && !next.is CLOSE) = true) :
    memberFrom c1 (dash :: next :: tail) =
      (.range c1 (pointChar next tail).1, (pointChar next tail).2) := if_pos h

theorem memberFrom_written (hguards : GuardsSpecial guards)
    (hspelled : Spelled points) (c1 : Nat) :
    (rangeKept guards points = true ∧ memberFrom c1 (writtenUnits guards points) =
        ((memberFrom c1 points).1, writtenUnits guards (memberFrom c1 points).2)) ∨
      (rangeKept guards points = false ∧
        (memberFrom c1 (writtenUnits guards points)).1 ≠ (memberFrom c1 points).1) := by
  rcases points with _ | ⟨dash, rest⟩
  · exact .inl ⟨rfl, rfl⟩
  cases hdash : dash.quoted && guards dash.code with
  | true =>
    -- A guarded dash makes no range.
    have hparts := Bool.and_eq_true_iff.mp hdash
    have hquoted : dash.is DASH = false := by rw [Point.is, hparts.1]; rfl
    have hkept : rangeKept guards (dash :: rest) = true := by
      cases rest with
      | nil => rfl
      | cons next tail =>
        rw [rangeKept]
        split
        · rename_i hrange
          rw [Bool.and_eq_true, beq_iff_eq] at hrange
          rw [if_pos hparts.1, ← hrange.1, hparts.2]
        · rfl
    refine .inl ⟨hkept, ?_⟩
    rw [memberFrom_unit fun next _ => by rw [hquoted, Bool.false_and]]
    dsimp only
    rw [written_guarded hdash, memberFrom_unit fun next _ => rfl]
  | false =>
    cases rest with
    | nil =>
      rw [written_bare hdash]
      refine .inl ⟨rfl, ?_⟩
      exact congrArg (Member.unit c1, ·) (written_bare hdash []).symm
    | cons next tail =>
      obtain ⟨behind, hbehind⟩ := @written_cons guards next tail
      have hnext : Spelled (next :: tail) := hspelled.suffix (suffix_cons dash _)
      have hmark := Point.is_mark hguards (show isSpecialCode CLOSE = true from rfl) next
      have hactive : dash.quoted = false →
          (Point.active dash.code).is DASH = dash.is DASH := by
        intro hquoted
        rw [Point.is, Point.is, hquoted]
        rfl
      rw [written_bare hdash, hbehind, rangeKept]
      cases hrange : dash.code == DASH && !next.is CLOSE with
      | false =>
        refine .inl ⟨rfl, ?_⟩
        have hunit : (dash.is DASH && !next.is CLOSE) = false := by
          rw [Point.is, Bool.and_assoc, hrange, Bool.and_false]
        have hunit' : ((Point.active dash.code).is DASH &&
            !(Point.active (next.mark guards)).is CLOSE) = false := by
          rw [hmark, Point.is_active, hrange]
        rw [memberFrom_unit fun _ h => Option.mem_some.mp h ▸ hunit',
          memberFrom_unit fun _ h => Option.mem_some.mp h ▸ hunit]
        dsimp only
        rw [written_bare hdash, hbehind]
      | true =>
        have hrange' : ((Point.active dash.code).is DASH &&
            !(Point.active (next.mark guards)).is CLOSE) = true := by
          rw [hmark, Point.is_active, hrange]
        rw [memberFrom_range hrange']
        cases hquoted : dash.quoted with
        | true =>
          -- The dash is bare: where it makes a range, it should be a member.
          rw [Bool.and_eq_true, beq_iff_eq] at hrange
          rw [hquoted, Bool.true_and, hrange.1] at hdash
          have hunit : dash.is DASH = false := by rw [Point.is, hquoted]; rfl
          refine .inr ⟨hdash, ?_⟩
          rw [memberFrom_unit fun _ _ => by rw [hunit, Bool.false_and]]
          exact nofun
        | false =>
          have hspec : (dash.is DASH && !next.is CLOSE) = true := by
            rwa [← hactive hquoted, Point.is_active]
          rw [memberFrom_range hspec]
          rcases pointChar_written hguards hnext hbehind with ⟨hkept, hchar⟩ | ⟨hkept, hchar⟩
          · refine .inl ⟨hkept, ?_⟩
            rw [hchar]
          · refine .inr ⟨hkept, fun heq => hnext.pointChar_ne ?_⟩
            rw [← hchar]
            exact (Member.range.inj heq).2.symm

theorem pointMember_written (hguards : GuardsSpecial guards)
    {rest behind} (hspelled : Spelled (p :: rest))
    (hbehind : writtenUnits guards (p :: rest) = .active (p.mark guards) :: behind) :
    (memberKept guards p rest = true ∧ pointMember (.active (p.mark guards)) behind =
        ((pointMember p rest).1, writtenUnits guards (pointMember p rest).2)) ∨
      (memberKept guards p rest = false ∧
        (pointMember (.active (p.mark guards)) behind).1 ≠ (pointMember p rest).1) := by
  have hrest : Spelled (pointChar p rest).2 :=
    hspelled.suffix ((pointChar_suffix p rest).trans (suffix_cons p rest))
  rw [memberKept, pointMember, pointMember]
  rcases pointChar_written hguards hspelled hbehind with ⟨hkept, hchar⟩ | ⟨hkept, hchar⟩
  · rw [hkept, hchar, Bool.true_and]
    exact memberFrom_written hguards hrest _
  · rw [hkept, Bool.false_and]
    refine .inr ⟨rfl, fun heq => hspelled.pointChar_ne ?_⟩
    have hlow := congrArg Member.low heq
    rw [memberFrom_low, memberFrom_low, hchar] at hlow
    exact hlow.symm

theorem pointMembers_written (hguards : GuardsSpecial guards) (first : Bool) (points : List Point)
    (hspelled : Spelled points) :
    (membersKept guards first points = true ∧ pointMembers first (writtenUnits guards points) =
        ((pointMembers first points).1, writtenUnits guards (pointMembers first points).2)) ∨
      (membersKept guards first points = false ∧
        (pointMembers first (writtenUnits guards points)).1 ≠ (pointMembers first points).1) := by
  induction first, points using pointMembers.induct with
  | case1 first =>
    have hnil : pointMembers first [] = ([], []) := by rw [pointMembers]
    refine .inl ⟨by rw [membersKept], ?_⟩
    rw [hnil]
    exact hnil
  | case2 first p rest hclose =>
    obtain ⟨behind, hbehind⟩ := @written_cons guards p rest
    have hmark : ((Point.active (p.mark guards)).is CLOSE && !first) = true := by
      rw [Point.is_mark hguards rfl, hclose]
    refine .inl ⟨by rw [membersKept, if_pos hclose], ?_⟩
    rw [pointMembers, if_pos hclose, hbehind, pointMembers, if_pos hmark]
  | case3 first p rest hclose ih =>
    obtain ⟨behind, hbehind⟩ := @written_cons guards p rest
    have hmark : ¬ ((Point.active (p.mark guards)).is CLOSE && !first) = true := by
      rwa [Point.is_mark hguards rfl]
    rw [membersKept, if_neg hclose, pointMembers, if_neg hclose, hbehind, pointMembers,
      if_neg hmark]
    rcases pointMember_written hguards hspelled hbehind with ⟨hkept, hmember⟩ | ⟨hkept, hmember⟩
    · rw [hkept, hmember, Bool.true_and]
      have hsuffix := (pointMember_suffix p rest).trans (suffix_cons p rest)
      rcases ih (hspelled.suffix hsuffix) with ⟨hlater, hmembers⟩ | ⟨hlater, hmembers⟩
      · refine .inl ⟨hlater, ?_⟩
        rw [hmembers]
      · exact .inr ⟨hlater, fun heq => hmembers (List.cons.inj heq).2⟩
    · rw [hkept, Bool.false_and]
      exact .inr ⟨rfl, fun heq => hmember (List.cons.inj heq).1⟩

/-! ### Patterns -/

theorem negated_written (hguards : GuardsSpecial guards) (points : List Point) :
    negated (writtenUnits guards points) = negated points := by
  cases points with
  | nil => rfl
  | cons p rest =>
    obtain ⟨behind, hbehind⟩ := @written_cons guards p rest
    rw [hbehind]
    exact Point.is_mark hguards rfl p

/-- Dropping an active unit, or none, of what is written. -/
theorem tail_written {points c} (h : ∀ p ∈ points.head?, p.is c = true) :
    (writtenUnits guards points).tail = writtenUnits guards points.tail := by
  cases points with
  | nil => rfl
  | cons p rest =>
    have hquoted := Point.quoted_of_is (h p rfl)
    rw [written_bare (bare_of_active hquoted)]
    rfl

theorem bracketBody_written (hguards : GuardsSpecial guards) (points : List Point) :
    bracketBody (writtenUnits guards points) = writtenUnits guards (bracketBody points) := by
  rw [bracketBody, bracketBody, negated_written hguards]
  split
  · rename_i hnegated
    refine @tail_written guards points BANG fun p hp => ?_
    rw [negated, Option.mem_def.mp hp] at hnegated
    exact hnegated
  · rfl

/-- The members of a bracket expression end at the bracket that closes it. -/
theorem pointMembers_ends (first : Bool) (points : List Point) :
    ∀ p ∈ (pointMembers first points).2.head?, p.is CLOSE = true := by
  induction first, points using pointMembers.induct with
  | case1 first =>
    rw [pointMembers]
    exact fun p hp => (Option.not_mem_none p hp).elim
  | case2 first p rest hclose =>
    rw [pointMembers, if_pos hclose]
    intro q hq
    obtain rfl : p = q := Option.some.inj hq
    exact (Bool.and_eq_true_iff.mp hclose).1
  | case3 first p rest hclose ih =>
    rw [pointMembers, if_neg hclose]
    exact ih

theorem bracket_written (hguards : GuardsSpecial guards)
    (hspelled : Spelled points) :
    (membersKept guards true (bracketBody points) = true ∧
        (pointMembers true (bracketBody (writtenUnits guards points))).1 =
          (pointMembers true (bracketBody points)).1 ∧
        bracketRest (writtenUnits guards points) = writtenUnits guards (bracketRest points)) ∨
      (membersKept guards true (bracketBody points) = false ∧
        (pointMembers true (bracketBody (writtenUnits guards points))).1 ≠
          (pointMembers true (bracketBody points)).1) := by
  rw [bracketRest, bracketBody_written hguards]
  rcases pointMembers_written hguards true (bracketBody points)
    (hspelled.suffix (bracketBody_suffix points)) with ⟨hkept, hmembers⟩ | ⟨hkept, hmembers⟩
  · refine .inl ⟨hkept, by rw [hmembers], ?_⟩
    rw [hmembers]
    exact tail_written (pointMembers_ends true (bracketBody points))
  · exact .inr ⟨hkept, hmembers⟩

theorem readPoints_cons (p : Point) (rest : List Point) :
    readPoints (p :: rest) =
      if p.is QUESTION then .one :: readPoints rest
      else if p.is STAR then .any :: readPoints rest
      else if p.is OPEN then
        .bracket (negated rest) (pointMembers true (bracketBody rest)).1 ::
          readPoints (bracketRest rest)
      else if p.escapes then
        match rest with
        | [] => [.trailing p.code]
        | next :: rest => .unit next.code :: readPoints rest
      else .unit p.code :: readPoints rest := by
  rw [readPoints.eq_def]

theorem readPoints_one (rest : List Point) :
    readPoints (.active QUESTION :: rest) = .one :: readPoints rest := readPoints_cons _ _

theorem readPoints_any (rest : List Point) :
    readPoints (.active STAR :: rest) = .any :: readPoints rest := readPoints_cons _ _

theorem readPoints_open (rest : List Point) :
    readPoints (.active OPEN :: rest) =
      .bracket (negated rest) (pointMembers true (bracketBody rest)).1 ::
        readPoints (bracketRest rest) := readPoints_cons _ _

theorem readPoints_escape (he : isEscape e = true) (rest : List Point) :
    readPoints (.active e :: rest) =
      match rest with
      | [] => [.trailing e]
      | next :: rest => .unit next.code :: readPoints rest := by
  obtain ⟨hone, hany, hopen⟩ := isEscape_cases he
  rw [readPoints_cons, Point.is_active, Point.is_active, Point.is_active, Point.escapes_active,
    if_neg (by simpa using hone), if_neg (by simpa using hany), if_neg (by simpa using hopen),
    if_pos he]
  rfl

theorem Point.eq_active (h : p.is c = true) : p = .active c := by
  obtain ⟨code, quoted⟩ := p
  simp only [is, Bool.and_eq_true, Bool.not_eq_true', beq_iff_eq] at h
  rw [h.1, h.2]
  rfl

theorem Point.eq_escape (h : p.escapes = true) : p = .active p.code ∧ isEscape p.code = true := by
  obtain ⟨code, quoted⟩ := p
  simp only [escapes, Bool.and_eq_true, Bool.not_eq_true'] at h
  refine ⟨?_, h.2⟩
  rw [h.1]
  rfl

theorem pointsKept_cons (p : Point) (rest : List Point) :
    pointsKept guards (p :: rest) =
      if p.is OPEN then
        membersKept guards true (bracketBody rest) && pointsKept guards (bracketRest rest)
      else if p.escapes then
        match rest with
        | [] => true
        | next :: rest => !(next.quoted && guards next.code) && pointsKept guards rest
      else pointsKept guards rest := by
  rw [pointsKept.eq_def]

theorem readPoints_ordinary (hguards : GuardsSpecial guards)
    (hp : p.code ≠ GLOB_ESCAPE) (hone : p.is QUESTION = false) (hany : p.is STAR = false)
    (hopen : p.is OPEN = false) (hescape : p.escapes = false) :
    readPoints (writtenUnits guards (p :: rest)) =
      .unit p.code :: readPoints (writtenUnits guards rest) := by
  cases hguarded : p.quoted && guards p.code with
  | true =>
    rw [written_guarded hguarded, readPoints_cons, if_neg (by decide), if_neg (by decide),
      if_neg (by decide), if_pos (by decide)]
    rfl
  | false =>
    have hmark : p.mark guards = p.code := by rw [Point.mark, hguarded, if_neg (by decide)]
    have hspecial : ∀ c, isSpecialCode c = true → (Point.active p.code).is c = p.is c := by
      intro c hc
      have h := Point.is_mark hguards hc p
      rwa [hmark] at h
    rw [written_bare hguarded, readPoints_cons, hspecial QUESTION rfl, hspecial STAR rfl,
      hspecial OPEN rfl, Point.escapes_active, isEscape_bare hguards hp hguarded, hone, hany,
      hopen, hescape, if_neg (by decide), if_neg (by decide), if_neg (by decide),
      if_neg (by decide)]
    rfl

/-- **Writing keeps the reading exactly when no quoted dash that is written bare makes a
range, and no active escape stands before the guard of a quoted unit.** -/
theorem readPoints_written (hguards : GuardsSpecial guards) (points : List Point)
    (hspelled : Spelled points) :
    readPoints (writtenUnits guards points) = readPoints points ↔
      pointsKept guards points = true := by
  induction points using readPoints.induct with
  | case1 =>
    rw [pointsKept]
    exact iff_of_true rfl rfl
  | case2 p rest hone ih =>
    obtain rfl := Point.eq_active hone
    rw [written_active, readPoints_one, readPoints_one, cons_inj_right, pointsKept_cons,
      if_neg (by decide), if_neg (by decide)]
    exact ih (hspelled.suffix (suffix_cons _ rest))
  | case3 p rest hone hany ih =>
    obtain rfl := Point.eq_active hany
    rw [written_active, readPoints_any, readPoints_any, cons_inj_right, pointsKept_cons,
      if_neg (by decide), if_neg (by decide)]
    exact ih (hspelled.suffix (suffix_cons _ rest))
  | case4 p rest hone hany hopen ih =>
    obtain rfl := Point.eq_active hopen
    have hrest := hspelled.suffix (suffix_cons _ rest)
    rw [written_active, readPoints_open, readPoints_open, negated_written hguards,
      pointsKept_cons, if_pos hopen, List.cons.injEq]
    rcases bracket_written hguards hrest with ⟨hkept, hmembers, hafter⟩ | ⟨hkept, hmembers⟩
    · rw [hmembers, hafter, hkept, Bool.true_and]
      have hnext := ih (hrest.suffix (bracketRest_suffix rest))
      exact ⟨fun h => hnext.mp h.2, fun h => ⟨rfl, hnext.mpr h⟩⟩
    · rw [hkept, Bool.false_and]
      refine ⟨fun h => absurd ?_ hmembers, fun h => absurd h (by decide)⟩
      exact (Element.bracket.inj h.1).2
  | case5 p hone hany hopen hescape =>
    obtain ⟨hp, -⟩ := Point.eq_escape hescape
    rw [hp, written_active, pointsKept_cons, ← hp, if_neg hopen, if_pos hescape]
    exact iff_of_true rfl rfl
  | case6 p hone hany hopen hescape next rest ih =>
    obtain ⟨hp, he⟩ := Point.eq_escape hescape
    have hnext := hspelled.suffix (suffix_cons p _)
    rw [pointsKept_cons, if_neg hopen, if_pos hescape, hp, written_active, readPoints_escape he,
      readPoints_escape he]
    dsimp only
    cases hguarded : next.quoted && guards next.code with
    | true =>
      -- The escape takes the guard of the next unit.
      rw [written_guarded hguarded, Bool.not_true, Bool.false_and]
      refine ⟨fun h => absurd ?_ (hnext next mem_cons_self), fun h => absurd h (by decide)⟩
      exact (Element.unit.inj (List.cons.inj h).1).symm
    | false =>
      rw [written_bare hguarded, Bool.not_false, Bool.true_and]
      exact (cons_inj_right _).trans (ih (hnext.suffix (suffix_cons next rest)))
  | case7 p rest hone hany hopen hescape ih =>
    rw [readPoints_ordinary hguards (hspelled p mem_cons_self)
      (Bool.eq_false_iff.mpr hone) (Bool.eq_false_iff.mpr hany) (Bool.eq_false_iff.mpr hopen)
      (Bool.eq_false_iff.mpr hescape), readPoints_cons, if_neg hone, if_neg hany, if_neg hopen,
      if_neg hescape, cons_inj_right, pointsKept_cons, if_neg hopen, if_neg hescape]
    exact ih (hspelled.suffix (suffix_cons _ rest))

end

end Ish.Epsh
