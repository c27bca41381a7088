import Mathlib.Computability.Language
import Mathlib.Data.List.TakeWhile
import Ish.Epsh.Glob

/-!
# What a pattern means

The elements of a pattern and the language of each; the strings that a pattern stands
for are the concatenations of strings of its elements. `fnmatch_inner` is compared with
that language.
-/

namespace Ish.Epsh

open Ish.Lib List

/-! ## Elements -/

/-- An element of a pattern. A `trailing` one is an escape at the end of the pattern,
which escapes nothing. -/
inductive Element where
  | any
  | one
  | bracket (negate : Bool) (members : List Member)
  | unit (c : Nat)
  | trailing (c : Nat)
deriving DecidableEq

/-- Whether one of the members lists `u`. -/
def listedIn (u : Nat) (members : List Member) : Bool := members.any (Member.lists u)

/-- The strings an element stands for. -/
def Element.language : Element → Language Nat
  | .any => {_s | True}
  | .one => {s | ∃ u, s = [u]}
  | .bracket negate members => {s | ∃ u, s = [u] ∧ listedIn u members = !negate}
  | .unit c => {[c]}
  | .trailing c => {[c]}

/-- The strings a pattern stands for. -/
def languageOf (elements : List Element) : Language Nat := (elements.map Element.language).prod

/-! ## Their text -/

/-- The text `pat` starts with a unit of a bracket expression, which is `c`. -/
inductive BracketChar : List Nat → Nat → List Nat → Prop
  | escaped {e : Nat} (he : isEscape e = true) (c : Nat) (rest : List Nat) :
      BracketChar (e :: c :: rest) c rest
  | plain {c : Nat} (hc : isEscape c = false) (rest : List Nat) : BracketChar (c :: rest) c rest

/-- What follows makes a unit the start of a range. -/
def startsRange : List Nat → Bool
  | dash :: next :: _ => dash == DASH && next != CLOSE
  | _ => false

/-- The text `pat` starts with the members of a bracket expression and the bracket that
closes it; in first position that bracket is ordinary. -/
inductive Members : Bool → List Nat → List Member → List Nat → Prop
  | close (rest : List Nat) : Members false (CLOSE :: rest) [] rest
  | unit {first : Bool} {pat rest after : List Nat} {c : Nat} {members : List Member}
      (hfirst : first = false → pat.head? ≠ some CLOSE) (hc : BracketChar pat c rest)
      (hrange : startsRange rest = false) (hmembers : Members false rest members after) :
      Members first pat (.unit c :: members) after
  | range {first : Bool} {pat rest tail after : List Nat} {lo hi : Nat} {members : List Member}
      (hfirst : first = false → pat.head? ≠ some CLOSE)
      (hlo : BracketChar pat lo (DASH :: rest)) (hend : rest.head? ≠ some CLOSE)
      (hhi : BracketChar rest hi tail) (hmembers : Members false tail members after) :
      Members first pat (.range lo hi :: members) after

/-- A unit that only stands for itself. -/
def isOrdinary (c : Nat) : Bool := !(c == QUESTION || c == STAR || c == OPEN || isEscape c)

/-- The text of a pattern. Every bracket expression that is opened is closed. -/
inductive PatternText : List Nat → List Element → Prop
  | nil : PatternText [] []
  | any {pat : List Nat} {elements : List Element} (h : PatternText pat elements) :
      PatternText (STAR :: pat) (.any :: elements)
  | one {pat : List Nat} {elements : List Element} (h : PatternText pat elements) :
      PatternText (QUESTION :: pat) (.one :: elements)
  | bracket {pat rest : List Nat} {members : List Member} {elements : List Element}
      (hnegate : pat.head? ≠ some BANG) (hmembers : Members true pat members rest)
      (h : PatternText rest elements) :
      PatternText (OPEN :: pat) (.bracket false members :: elements)
  | negated {pat rest : List Nat} {members : List Member} {elements : List Element}
      (hmembers : Members true pat members rest) (h : PatternText rest elements) :
      PatternText (OPEN :: BANG :: pat) (.bracket true members :: elements)
  | escaped {e : Nat} (he : isEscape e = true) (c : Nat) {pat : List Nat}
      {elements : List Element} (h : PatternText pat elements) :
      PatternText (e :: c :: pat) (.unit c :: elements)
  | trailing {e : Nat} (he : isEscape e = true) : PatternText [e] [.trailing e]
  | ordinary {c : Nat} (hc : isOrdinary c = true) {pat : List Nat} {elements : List Element}
      (h : PatternText pat elements) : PatternText (c :: pat) (.unit c :: elements)

/-! ## The languages of elements -/

theorem languageOf_nil : languageOf [] = 1 := rfl

theorem mem_languageOf_nil : s ∈ languageOf [] ↔ s = [] := Language.mem_one s

theorem languageOf_cons (e : Element) (elements : List Element) :
    languageOf (e :: elements) = e.language * languageOf elements := prod_cons

variable {elements : List Element}

theorem mem_languageOf_any :
    s ∈ languageOf (.any :: elements) ↔ ∃ tail, tail <:+ s ∧ tail ∈ languageOf elements := by
  rw [languageOf_cons, Language.mem_mul]
  constructor
  · rintro ⟨piece, -, tail, htail, rfl⟩
    exact ⟨tail, suffix_append _ _, htail⟩
  · rintro ⟨tail, ⟨piece, rfl⟩, htail⟩
    exact ⟨piece, trivial, tail, htail, rfl⟩

theorem mem_languageOf_single {p : Nat → Prop}
    (he : ∀ piece, piece ∈ e.language ↔ ∃ u, piece = [u] ∧ p u) {s : List Nat} :
    s ∈ languageOf (e :: elements) ↔ ∃ u tail, s = u :: tail ∧ p u ∧ tail ∈ languageOf elements := by
  rw [languageOf_cons, Language.mem_mul]
  constructor
  · rintro ⟨piece, hpiece, tail, htail, rfl⟩
    obtain ⟨u, rfl, hu⟩ := (he piece).mp hpiece
    exact ⟨u, tail, rfl, hu, htail⟩
  · rintro ⟨u, tail, rfl, hu, htail⟩
    exact ⟨[u], (he [u]).mpr ⟨u, rfl, hu⟩, tail, htail, rfl⟩

/-! ## Brackets -/

theorem readBracketChar_of {d c tail rest}
    (h : BracketChar (d :: tail) c rest) : readBracketChar d tail = (c, rest) := by
  cases h with
  | escaped he => rw [readBracketChar, if_pos he]
  | plain hc =>
    cases tail with
    | nil => rfl
    | cons next tail =>
      rw [readBracketChar, if_neg]
      rw [hc]
      exact Bool.false_ne_true

theorem readMember_unit {d c tail rest} (h : BracketChar (d :: tail) c rest)
    (hrange : startsRange rest = false) : readMember d tail = (.unit c, rest) := by
  unfold readMember
  rw [readBracketChar_of h]
  split
  · rename_i heq
    obtain ⟨rfl, rfl⟩ := Prod.mk.inj heq
    rw [if_neg]
    rintro ⟨rfl, hnext⟩
    simp [startsRange, hnext] at hrange
  · rename_i heq
    obtain ⟨rfl, rfl⟩ := Prod.mk.inj heq
    rfl

theorem readMember_range {d lo hi pat rest tail}
    (hlo : BracketChar (d :: pat) lo (DASH :: rest)) (hend : rest.head? ≠ some CLOSE)
    (hhi : BracketChar rest hi tail) : readMember d pat = (.range lo hi, tail) := by
  unfold readMember
  rw [readBracketChar_of hlo]
  cases rest with
  | nil => cases hhi
  | cons next rest =>
    have hnext : next ≠ CLOSE := fun h => hend (congrArg some h)
    dsimp only
    rw [if_pos ⟨rfl, hnext⟩, readBracketChar_of hhi]

theorem not_closes {first d tail}
    (h : first = false → (d :: tail).head? ≠ some CLOSE) : ¬ (d = CLOSE ∧ first = false) :=
  fun hclose => h hclose.2 (congrArg some hclose.1)

/-- **The scan finds the members and the bracket behind them.** -/
theorem scanBracket_of_members {first pat after members}
    (h : Members first pat members after) (u : Nat) (matched : Bool) :
    scanBracket u first matched pat = (matched || listedIn u members, CLOSE :: after) := by
  induction h generalizing matched with
  | close rest =>
    rw [scanBracket, if_pos ⟨rfl, rfl⟩]
    exact congrArg (·, CLOSE :: rest) (Bool.or_false matched).symm
  | @unit first pat rest after c members hfirst hc hrange hmembers ih =>
    cases pat with
    | nil => cases hc
    | cons d tail =>
      rw [scanBracket, if_neg (not_closes hfirst), readMember_unit hc hrange, ih,
        Bool.or_assoc]
      rfl
  | @range first pat rest tail after lo hi members hfirst hlo hend hhi hmembers ih =>
    cases pat with
    | nil => cases hlo
    | cons d pat =>
      rw [scanBracket, if_neg (not_closes hfirst), readMember_range hlo hend hhi, ih,
        Bool.or_assoc]
      rfl

/-! ## Matching, one element at a time -/

theorem fnmatchInner_nil (s : List Nat) : fnmatchInner [] s = s.isEmpty := by
  rw [fnmatchInner.eq_def]

/-- The arms of the loop. -/
theorem fnmatchInner_one (pat : List Nat) :
    fnmatchInner (QUESTION :: pat) (u :: s) = fnmatchInner pat s := by
  rw [fnmatchInner.eq_def]
  rfl

theorem fnmatchInner_one_nil (pat : List Nat) : fnmatchInner (QUESTION :: pat) [] = false := by
  rw [fnmatchInner.eq_def]
  rfl

theorem fnmatchInner_any (pat s : List Nat) :
    fnmatchInner (STAR :: pat) s =
      if (pat.dropWhile (· == STAR)).isEmpty then true
      else s.tails.any fun s => fnmatchInner (pat.dropWhile (· == STAR)) s := by
  rw [fnmatchInner.eq_def]
  rfl

theorem fnmatchInner_open (pat : List Nat) (u : Nat) (s : List Nat) :
    fnmatchInner (OPEN :: pat) (u :: s) =
      let negate := pat.head? == some BANG
      let scanned := scanBracket u true false (if negate then pat.tail else pat)
      if scanned.1 = negate then false else fnmatchInner scanned.2.tail s := by
  rw [fnmatchInner.eq_def]
  rfl

theorem fnmatchInner_open_nil (pat : List Nat) : fnmatchInner (OPEN :: pat) [] = false := by
  rw [fnmatchInner.eq_def]
  rfl

theorem isEscape_cases (he : isEscape e = true) : e ≠ QUESTION ∧ e ≠ STAR ∧ e ≠ OPEN := by
  simp only [isEscape, Bool.or_eq_true, beq_iff_eq] at he
  rcases he with rfl | rfl <;> decide

theorem fnmatchInner_trailing (he : isEscape e = true) (s : List Nat) :
    fnmatchInner [e] s = false := by
  obtain ⟨hone, hany, hopen⟩ := isEscape_cases he
  rw [fnmatchInner.eq_def]
  dsimp only
  rw [if_neg hone, if_neg hany, if_neg hopen, if_pos he]

theorem unit_next :
    (match s with
      | [] => false
      | u :: s => if u = c then fnmatchInner pat s else false) = true ↔
      ∃ u tail, s = u :: tail ∧ u = c ∧ fnmatchInner pat tail = true := by
  cases s with
  | nil => exact ⟨nofun, nofun⟩
  | cons u s =>
    constructor
    · intro h
      dsimp only at h
      by_cases hu : u = c
      · rw [if_pos hu] at h
        exact ⟨u, s, rfl, hu, h⟩
      · rw [if_neg hu] at h
        cases h
    · rintro ⟨_, _, heq, hu, h⟩
      obtain ⟨rfl, rfl⟩ := List.cons.inj heq
      exact (if_pos hu).trans h

theorem fnmatchInner_escaped (he : isEscape e = true) (c : Nat) (pat s : List Nat) :
    fnmatchInner (e :: c :: pat) s = true ↔
      ∃ u tail, s = u :: tail ∧ u = c ∧ fnmatchInner pat tail = true := by
  obtain ⟨hone, hany, hopen⟩ := isEscape_cases he
  rw [fnmatchInner.eq_def]
  dsimp only
  rw [if_neg hone, if_neg hany, if_neg hopen, if_pos he]
  exact unit_next

theorem fnmatchInner_ordinary (hc : isOrdinary c = true) (pat s : List Nat) :
    fnmatchInner (c :: pat) s = true ↔
      ∃ u tail, s = u :: tail ∧ u = c ∧ fnmatchInner pat tail = true := by
  simp only [isOrdinary, Bool.not_eq_true', Bool.or_eq_false_iff, beq_eq_false_iff_ne] at hc
  obtain ⟨⟨⟨hone, hany⟩, hopen⟩, hescape⟩ := hc
  rw [fnmatchInner.eq_def]
  dsimp only
  rw [if_neg hone, if_neg hany, if_neg hopen, if_neg (by rw [hescape]; exact Bool.false_ne_true)]
  exact unit_next

/-- **A star stands for any start of the string**, also in a run of stars. -/
theorem fnmatchInner_star (pat s : List Nat) :
    fnmatchInner (STAR :: pat) s = true ↔ ∃ tail, tail <:+ s ∧ fnmatchInner pat tail = true := by
  induction pat generalizing s with
  | nil =>
    rw [fnmatchInner_any]
    exact ⟨fun _ => ⟨[], nil_suffix, by rw [fnmatchInner_nil]; rfl⟩, fun _ => rfl⟩
  | cons c pat ih =>
    by_cases hc : c = STAR
    · subst hc
      have hrun : fnmatchInner (STAR :: STAR :: pat) s = fnmatchInner (STAR :: pat) s := by
        have hdrop : (STAR :: pat).dropWhile (· == STAR) = pat.dropWhile (· == STAR) :=
          dropWhile_cons_of_pos (p := (· == STAR)) (beq_self_eq_true STAR)
        rw [fnmatchInner_any, fnmatchInner_any, hdrop]
      rw [hrun]
      constructor
      · exact fun h => ⟨s, suffix_refl s, h⟩
      · rintro ⟨tail, htail, h⟩
        obtain ⟨last, hlast, h⟩ := (ih tail).mp h
        exact (ih s).mpr ⟨last, hlast.trans htail, h⟩
    · have hdrop : (c :: pat).dropWhile (· == STAR) = c :: pat :=
        dropWhile_cons_of_neg (by simpa using hc)
      rw [fnmatchInner_any, hdrop, if_neg (by simp), any_eq_true]
      simp only [mem_tails]

/-! ## Whole patterns -/

theorem Element.one_single (piece : List Nat) :
    piece ∈ Element.one.language ↔ ∃ u, piece = [u] ∧ True :=
  ⟨fun ⟨u, h⟩ => ⟨u, h, trivial⟩, fun ⟨u, h, _⟩ => ⟨u, h⟩⟩

theorem Element.bracket_single (negate : Bool) (members : List Member) (piece : List Nat) :
    piece ∈ (Element.bracket negate members).language ↔
      ∃ u, piece = [u] ∧ listedIn u members = !negate := Iff.rfl

theorem Element.unit_single (c : Nat) (piece : List Nat) :
    piece ∈ (Element.unit c).language ↔ ∃ u, piece = [u] ∧ u = c :=
  ⟨fun h => ⟨c, h, rfl⟩, fun ⟨_, h, hu⟩ => h.trans (congrArg (fun u => [u]) hu)⟩

/-- The pattern ends in an escape that escapes nothing. -/
def Dangling (elements : List Element) : Prop := ∃ c, .trailing c ∈ elements

theorem fnmatchInner_bracket {negate : Bool} {pat text after members}
    (htext : text = if negate then BANG :: pat else pat)
    (hnegate : negate = false → pat.head? ≠ some BANG) (hmembers : Members true pat members after)
    (s : List Nat) :
    fnmatchInner (OPEN :: text) s = true ↔
      ∃ u tail, s = u :: tail ∧ listedIn u members = !negate ∧ fnmatchInner after tail = true := by
  have hhead : (text.head? == some BANG) = negate := by
    cases negate with
    | true => rw [htext]; rfl
    | false =>
      rw [htext]
      exact beq_eq_false_iff_ne.mpr (hnegate rfl)
  have hbody : (if negate then text.tail else text) = pat := by
    cases negate <;> rw [htext] <;> rfl
  cases s with
  | nil => 
    rw [fnmatchInner_open_nil]
    exact ⟨nofun, nofun⟩
  | cons u s =>
    rw [fnmatchInner_open]
    dsimp only
    rw [hhead, hbody, scanBracket_of_members hmembers, Bool.false_or]
    constructor
    · intro h
      split at h
      · cases h
      · rename_i hne
        exact ⟨u, s, rfl, Bool.eq_not_of_ne hne, h⟩
    · rintro ⟨_, _, heq, hlisted, h⟩
      obtain ⟨rfl, rfl⟩ := List.cons.inj heq
      have hne : listedIn u members ≠ negate := by
        rw [hlisted]
        exact Bool.not_ne_self negate
      rw [if_neg hne]
      exact h

/-- **Without a dangling escape matching is membership in the pattern's language.** -/
theorem fnmatchInner_iff {pat : List Nat}
    (h : PatternText pat elements) (hdangling : ¬ Dangling elements) (s : List Nat) :
    fnmatchInner pat s = true ↔ s ∈ languageOf elements := by
  induction h generalizing s with
  | nil => rw [fnmatchInner_nil, List.isEmpty_iff, mem_languageOf_nil]
  | any h ih =>
    have hrest := ih fun ⟨c, hc⟩ => hdangling ⟨c, mem_cons_of_mem _ hc⟩
    rw [fnmatchInner_star, mem_languageOf_any]
    simp only [hrest]
  | @one pat elements h ih =>
    have hrest := ih fun ⟨c, hc⟩ => hdangling ⟨c, mem_cons_of_mem _ hc⟩
    rw [mem_languageOf_single Element.one_single]
    cases s with
    | nil =>
      rw [fnmatchInner_one_nil]
      exact ⟨nofun, nofun⟩
    | cons u s =>
      rw [fnmatchInner_one, hrest]
      constructor
      · exact fun h => ⟨u, s, rfl, trivial, h⟩
      · rintro ⟨_, _, heq, -, h⟩
        obtain ⟨rfl, rfl⟩ := List.cons.inj heq
        exact h
  | @bracket pat rest members elements hnegate hmembers h ih =>
    have hrest := ih fun ⟨c, hc⟩ => hdangling ⟨c, mem_cons_of_mem _ hc⟩
    have hbracket := @fnmatchInner_bracket false pat pat rest members rfl (fun _ => hnegate)
      hmembers s
    rw [hbracket, mem_languageOf_single (Element.bracket_single false members)]
    simp only [hrest]
  | @negated pat rest members elements hmembers h ih =>
    have hrest := ih fun ⟨c, hc⟩ => hdangling ⟨c, mem_cons_of_mem _ hc⟩
    have hbracket := @fnmatchInner_bracket true pat (BANG :: pat) rest members rfl nofun
      hmembers s
    rw [hbracket, mem_languageOf_single (Element.bracket_single true members)]
    simp only [hrest]
  | @escaped e he c pat elements h ih =>
    have hrest := ih fun ⟨c, hc⟩ => hdangling ⟨c, mem_cons_of_mem _ hc⟩
    rw [fnmatchInner_escaped he, mem_languageOf_single (Element.unit_single c)]
    simp only [hrest]
  | trailing he => exact absurd ⟨_, mem_singleton_self _⟩ hdangling
  | @ordinary c hc pat elements h ih =>
    have hrest := ih fun ⟨c, hc⟩ => hdangling ⟨c, mem_cons_of_mem _ hc⟩
    rw [fnmatchInner_ordinary hc, mem_languageOf_single (Element.unit_single c)]
    simp only [hrest]

def Element.isTrailing : Element → Bool
  | .trailing _ => true
  | _ => false

/-- With one nothing matches. -/
theorem fnmatchInner_dangling
    (h : PatternText pat elements) (hdangling : Dangling elements) (s : List Nat) :
    fnmatchInner pat s = false := by
  -- an escape in front of the rest of the pattern, or behind the first element
  have hrest {e : Element} {elements : List Element} (he : e.isTrailing = false)
      (hdangling : Dangling (e :: elements)) : Dangling elements := by
    obtain ⟨c, hc⟩ := hdangling
    rcases mem_cons.mp hc with rfl | hc
    · cases he
    · exact ⟨c, hc⟩
  rw [← Bool.not_eq_true]
  induction h generalizing s with
  | nil =>
    obtain ⟨c, hc⟩ := hdangling
    cases hc
  | any h ih =>
    rw [fnmatchInner_star]
    rintro ⟨tail, -, hmatch⟩
    exact ih (hrest rfl hdangling) tail hmatch
  | @one pat elements h ih =>
    cases s with
    | nil => rw [fnmatchInner_one_nil]; exact Bool.false_ne_true
    | cons u s =>
      rw [fnmatchInner_one]
      exact ih (hrest rfl hdangling) s
  | @bracket pat rest members elements hnegate hmembers h ih =>
    have hbracket := @fnmatchInner_bracket false pat pat rest members rfl (fun _ => hnegate)
      hmembers s
    rw [hbracket]
    rintro ⟨_, tail, -, -, hmatch⟩
    exact ih (hrest rfl hdangling) tail hmatch
  | @negated pat rest members elements hmembers h ih =>
    have hbracket := @fnmatchInner_bracket true pat (BANG :: pat) rest members rfl nofun
      hmembers s
    rw [hbracket]
    rintro ⟨_, tail, -, -, hmatch⟩
    exact ih (hrest rfl hdangling) tail hmatch
  | escaped he c h ih =>
    rw [fnmatchInner_escaped he]
    rintro ⟨_, tail, -, -, hmatch⟩
    exact ih (hrest rfl hdangling) tail hmatch
  | trailing he => rw [fnmatchInner_trailing he]; exact Bool.false_ne_true
  | ordinary hc h ih =>
    rw [fnmatchInner_ordinary hc]
    rintro ⟨_, tail, -, -, hmatch⟩
    exact ih (hrest rfl hdangling) tail hmatch

/-! ## When the language is empty -/

/-- A range that runs backwards. -/
def Member.backwards : Member → Bool
  | .unit _ => false
  | .range lo hi => decide (hi < lo)

/-- A bracket expression that lists nothing: each of its members is such a range. -/
def Element.listsNothing : Element → Bool
  | .bracket false members => members.all Member.backwards
  | _ => false

theorem listedIn_iff :
    listedIn u members = true ↔ ∃ m ∈ members, m.lists u = true := any_eq_true

theorem Member.exists_listed (m : Member) : (∃ u, m.lists u = true) ↔ m.backwards = false := by
  cases m with
  | unit c => exact ⟨fun _ => rfl, fun _ => ⟨c, beq_self_eq_true c⟩⟩
  | range lo hi =>
    simp only [lists, backwards, Bool.and_eq_true, decide_eq_true_eq, decide_eq_false_iff_not,
      not_lt]
    constructor
    · rintro ⟨u, hlo, hhi⟩
      exact hlo.trans hhi
    · exact fun h => ⟨lo, Nat.le_refl lo, h⟩

theorem exists_unlisted (members : List Member) : ∃ u, listedIn u members = false := by
  have hbound : ∃ b, ∀ u, b < u → ∀ m ∈ members, m.lists u = false := by
    induction members with
    | nil => exact ⟨0, fun _ _ => nofun⟩
    | cons m members ih =>
      obtain ⟨b, hb⟩ := ih
      have hm : ∃ d, ∀ u, d < u → m.lists u = false := by
        cases m with
        | unit c => exact ⟨c, fun u hu => beq_eq_false_iff_ne.mpr (Nat.ne_of_gt hu)⟩
        | range lo hi =>
          refine ⟨hi, fun u hu => ?_⟩
          rw [Member.lists, decide_eq_false (Nat.not_le.mpr hu), Bool.and_false]
      obtain ⟨d, hd⟩ := hm
      refine ⟨max b d, fun u hu m' hm' => ?_⟩
      rcases mem_cons.mp hm' with rfl | hm'
      · exact hd u (lt_of_le_of_lt (le_max_right b d) hu)
      · exact hb u (lt_of_le_of_lt (le_max_left b d) hu) m' hm'
  obtain ⟨b, hb⟩ := hbound
  refine ⟨b + 1, any_eq_false.mpr fun m hm => ?_⟩
  rw [hb _ (Nat.lt_succ_self b) m hm]
  exact Bool.false_ne_true

theorem Element.exists_mem (e : Element) : (∃ s, s ∈ e.language) ↔ e.listsNothing = false := by
  cases e with
  | any => exact ⟨fun _ => rfl, fun _ => ⟨[], trivial⟩⟩
  | one => exact ⟨fun _ => rfl, fun _ => ⟨[0], 0, rfl⟩⟩
  | unit c | trailing c => exact ⟨fun _ => rfl, fun _ => ⟨[c], rfl⟩⟩
  | bracket negate members =>
    cases negate with
    | true =>
      obtain ⟨u, hu⟩ := exists_unlisted members
      exact ⟨fun _ => rfl, fun _ => ⟨[u], u, rfl, hu⟩⟩
    | false =>
      rw [listsNothing, all_eq_false]
      constructor
      · rintro ⟨_, u, -, hu⟩
        obtain ⟨m, hm, hlists⟩ := listedIn_iff.mp hu
        exact ⟨m, hm, by rw [m.exists_listed.mp ⟨u, hlists⟩]; exact Bool.false_ne_true⟩
      · rintro ⟨m, hm, hforward⟩
        obtain ⟨u, hu⟩ := m.exists_listed.mpr (Bool.eq_false_iff.mpr hforward)
        exact ⟨[u], u, rfl, listedIn_iff.mpr ⟨m, hm, hu⟩⟩

theorem exists_mem_languageOf (elements : List Element) :
    (∃ s, s ∈ languageOf elements) ↔ ∀ e ∈ elements, e.listsNothing = false := by
  induction elements with
  | nil => exact ⟨fun _ => nofun, fun _ => ⟨[], mem_languageOf_nil.mpr rfl⟩⟩
  | cons e elements ih =>
    simp only [languageOf_cons, Language.mem_mul, forall_mem_cons, ← ih, ← e.exists_mem]
    constructor
    · rintro ⟨_, piece, hpiece, tail, htail, -⟩
      exact ⟨⟨piece, hpiece⟩, tail, htail⟩
    · rintro ⟨⟨piece, hpiece⟩, tail, htail⟩
      exact ⟨piece ++ tail, piece, hpiece, tail, htail, rfl⟩

/-- **Matching is membership in the pattern's language**, unless the pattern ends in an
escape that escapes nothing and its language is not empty. -/
theorem fnmatch_is_the_language {pat : List Nat} {elements : List Element}
    (h : PatternText pat elements) :
    (∀ s, fnmatchInner pat s = true ↔ s ∈ languageOf elements) ↔
      ¬ Dangling elements ∨ ∃ e ∈ elements, e.listsNothing = true := by
  constructor
  · intro hmatch
    by_contra hneither
    obtain ⟨hdangling, hsome⟩ := not_or.mp hneither
    have hforward : ∀ e ∈ elements, e.listsNothing = false := fun e he =>
      Bool.eq_false_iff.mpr fun hnothing => hsome ⟨e, he, hnothing⟩
    obtain ⟨s, hs⟩ := (exists_mem_languageOf elements).mpr hforward
    have htrue := (hmatch s).mpr hs
    rw [fnmatchInner_dangling h (not_not.mp hdangling)] at htrue
    cases htrue
  · intro hcondition s
    by_cases hdangling : Dangling elements
    · -- nothing matches, and the language is empty
      obtain ⟨e, he, hnothing⟩ := hcondition.resolve_left (not_not.mpr hdangling)
      rw [fnmatchInner_dangling h hdangling]
      refine ⟨nofun, fun hs => ?_⟩
      rw [(exists_mem_languageOf elements).mp ⟨s, hs⟩ e he] at hnothing
      cases hnothing
    · exact fnmatchInner_iff h hdangling s

/-- A negated bracket expression and a star. -/
theorem fnmatch_is_the_language_brackets :
    "bc".toList.map Char.toNat ∈ languageOf [.bracket true [.unit 97], .any] := by
  have htext : PatternText ("[!a]*".toList.map Char.toNat)
      [.bracket true [.unit 97], .any] :=
    .negated (.unit nofun (.plain rfl _) rfl (.close _)) (.any .nil)
  have hdangling : ¬ Dangling [.bracket true [.unit 97], .any] := by
    rintro ⟨c, hc⟩
    simp at hc
  exact ((fnmatch_is_the_language htext).mpr (.inl hdangling) ("bc".toList.map Char.toNat)).mp
    (by decide +kernel)

/-- A lone backslash does not match itself. -/
theorem trailing_escape_is_lost :
    PatternText [BACKSLASH] [.trailing BACKSLASH] ∧ [BACKSLASH] ∈ languageOf [.trailing BACKSLASH] ∧
      fnmatchInner [BACKSLASH] [BACKSLASH] = false := by
  refine ⟨.trailing rfl, ?_, fnmatchInner_trailing rfl _⟩
  rw [languageOf_cons, languageOf_nil, mul_one]
  rfl

end Ish.Epsh
