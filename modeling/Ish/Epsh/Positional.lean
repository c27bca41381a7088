import Ish.Epsh.Markers
import Ish.Epsh.Trim

/-!
# The positional parameters in a word

The fields of `$@`, `$*` and `"$@"` with quoted text around them. Quoted, each
parameter is a field, and the text goes to the first and the last of them. The
two unquoted forms should split each parameter and then do the same; when they
do is decided here.
-/

namespace Ish.Epsh

open Ish.Lib Ish.Lib.Delimited List
open Process (bind_ok)

variable {W : Type}

/-! ## Fields with text around them -/

/-- The last of the fields is continued. -/
def endWith (post : Text) : List Text → List Text
  | [] => []
  | [field] => [field ++ post]
  | field :: fields => field :: endWith post fields

/-- The text before goes to the first field and the text behind to the last; without
a field they make one, if they are there at all. -/
def attach (pre post : List Text) : List Text → List Text
  | [] => if pre = [] ∧ post = [] then [] else [pre.flatten ++ post.flatten]
  | first :: rest => endWith post.flatten ((pre.flatten ++ first) :: rest)

/-- The fields of one parameter. -/
def splitFields (ifs param : Text) : List Text := posixFields [⟨param, true, false⟩] ifs

/-- A parameter that is one field as it is. -/
def OneField (ifs param : Text) : Prop :=
  param ≠ [] ∧ ∀ unit ∈ shellChars param, unit ∉ shellChars ifs

instance (ifs param : Text) : Decidable (OneField ifs param) := inferInstanceAs (Decidable (_ ∧ _))

variable {pre post ps : List Text} {ifs param : Text}

theorem endWith_cons_cons (post field next : Text) (fields : List Text) :
    endWith post (field :: next :: fields) = field :: endWith post (next :: fields) := rfl

@[simp] theorem length_endWith (post : Text) (fields : List Text) :
    (endWith post fields).length = fields.length := by
  fun_induction endWith post fields with
  | case1 => rfl
  | case2 => rfl
  | case3 field fields _ ih => rw [length_cons, ih, length_cons]

theorem endWith_injective (post : Text) : Function.Injective (endWith post) := by
  intro fields
  induction fields with
  | nil =>
    intro others h
    have hlength := congrArg List.length h
    rw [length_endWith, length_endWith] at hlength
    exact (length_eq_zero_iff.mp hlength.symm).symm
  | cons field fields ih =>
    intro others h
    have hlength := congrArg List.length h
    rw [length_endWith, length_endWith] at hlength
    cases others with
    | nil => cases hlength
    | cons other others =>
      cases fields with
      | nil =>
        obtain rfl := length_eq_zero_iff.mp (Nat.succ.inj hlength).symm
        rw [append_cancel_right (List.cons.inj h).1]
      | cons next fields =>
        cases others with
        | nil => cases hlength
        | cons after others =>
          rw [endWith_cons_cons, endWith_cons_cons, List.cons.injEq] at h
          rw [h.1, ih h.2]

theorem attach_cons_inj :
    attach pre post (first :: rest) = attach pre post (first' :: rest') ↔
      first :: rest = first' :: rest' := by
  refine ⟨fun h => ?_, fun h => by rw [h]⟩
  have hcons := endWith_injective _ h
  rw [List.cons.injEq, append_cancel_left_eq] at hcons
  rw [hcons.1, hcons.2]

theorem attach_eq_attach {fields fields'} (hne : fields ≠ []) :
    attach pre post fields = attach pre post fields' ↔
      fields = fields' ∨ fields = [[]] ∧ fields' = [] ∧ (pre ≠ [] ∨ post ≠ []) := by
  cases fields with
  | nil => exact absurd rfl hne
  | cons first rest =>
    cases fields' with
    | cons first' rest' => rw [attach_cons_inj]; simp
    | nil =>
      rw [attach, attach]
      by_cases hnone : pre = [] ∧ post = []
      · rw [if_pos hnone]
        have hlength := length_endWith post.flatten ((pre.flatten ++ first) :: rest)
        refine iff_of_false (fun h => ?_) (by simp [hnone])
        rw [h] at hlength
        cases hlength
      · rw [if_neg hnone]
        cases rest with
        | nil =>
          rw [endWith, singleton_inj, append_assoc, append_cancel_left_eq,
            append_left_eq_self]
          rw [not_and_or] at hnone
          simp [hnone]
        | cons next rest =>
          refine iff_of_false (fun h => ?_) (by simp)
          have hlength := congrArg List.length h
          rw [length_endWith] at hlength
          cases hlength

/-! ## The fields of a parameter -/

theorem splitFields_eq (ifs param : Text) :
    splitFields ifs param = fields ((shellChars param).map (classify (ifsWs ifs) (ifsNws ifs))) := by
  simp [splitFields, posixFields, chunkFields, groupFrom, fragmentChunk, fragmentPieces]

theorem classify_isKeep :
    (classify (ifsWs ifs) (ifsNws ifs) unit).isKeep = true ↔ unit ∉ shellChars ifs := by
  have hmem : unit ∈ shellChars ifs ↔ unit ∈ ifsWs ifs ∨ unit ∈ ifsNws ifs := by
    rw [ifsWs, ifsNws, mem_filter, mem_filter]
    cases unit.all Text.isWhitespace <;> simp
  rw [classify, hmem]
  split
  · next hws => simp [Piece.isKeep, contains_iff_mem.mp hws]
  · next hws =>
      split
      · next hnws => simp [Piece.isKeep, contains_iff_mem.mp hnws]
      · next hnws =>
          simp only [contains_iff_mem] at hws hnws
          simp [Piece.isKeep, hws, hnws]

/-- What is kept of the units of a text. -/
def keptText (ifs : Text) (units : List Text) : Text :=
  (units.map (classify (ifsWs ifs) (ifsNws ifs))).flatMap Piece.text

theorem keptText_cons (unit : Text) (units : List Text) :
    keptText ifs (unit :: units) =
      (if unit ∈ shellChars ifs then [] else unit) ++ keptText ifs units := by
  rw [keptText, map_cons, flatMap_cons, keptText]
  congr 1
  by_cases hunit : unit ∈ shellChars ifs
  · have hkeep := mt classify_isKeep.mp (not_not.mpr hunit)
    rw [if_pos hunit]
    cases hpiece : classify (ifsWs ifs) (ifsNws ifs) unit with
    | white => rfl
    | delim => rfl
    | keep t => exact absurd (by rw [hpiece]; rfl) hkeep
  · rw [if_neg hunit]
    have hkeep := classify_isKeep.mpr hunit
    rw [classify] at hkeep ⊢
    split_ifs at hkeep ⊢
    · cases hkeep
    · cases hkeep
    · rfl

theorem length_keptText (units : List Text) (hne : ∀ unit ∈ units, unit ≠ []) :
    (keptText ifs units).length ≤ units.flatten.length ∧
      ((keptText ifs units).length = units.flatten.length →
        ∀ unit ∈ units, unit ∉ shellChars ifs) := by
  induction units with
  | nil => exact ⟨Nat.le_refl _, fun _ => nofun⟩
  | cons unit units ih =>
    obtain ⟨hle, heq⟩ := ih fun other hmem => hne other (mem_cons_of_mem unit hmem)
    have hpos := length_pos_iff.mpr (hne unit mem_cons_self)
    rw [keptText_cons, flatten_cons, length_append, length_append]
    by_cases hunit : unit ∈ shellChars ifs
    · rw [if_pos hunit, length_nil]
      exact ⟨by omega, fun h => by omega⟩
    · rw [if_neg hunit]
      refine ⟨by omega, fun h => forall_mem_cons.mpr ⟨hunit, heq ?_⟩⟩
      omega

theorem flatten_splitFields (ifs param : Text) :
    (splitFields ifs param).flatten = keptText ifs (shellChars param) := by
  rw [splitFields_eq, fields_flatten, keptText]

theorem splitFields_of_kept (h : ∀ unit ∈ shellChars param, unit ∉ shellChars ifs) :
    splitFields ifs param = if param = [] then [] else [param] := by
  have hkeep : ∀ p ∈ (shellChars param).map (classify (ifsWs ifs) (ifsNws ifs)),
      p.isKeep = true := by
    intro p hp
    obtain ⟨unit, hunit, rfl⟩ := mem_map.mp hp
    exact classify_isKeep.mpr (h unit hunit)
  have htext : ∀ units : List Text, (∀ unit ∈ units, unit ∉ shellChars ifs) →
      keptText ifs units = units.flatten := by
    intro units hunits
    induction units with
    | nil => rfl
    | cons unit units ih =>
      rw [keptText_cons, if_neg (hunits unit mem_cons_self), flatten_cons,
        ih fun other hmem => hunits other (mem_cons_of_mem unit hmem)]
  rw [splitFields_eq, fields_of_keep hkeep, ← keptText, htext _ h, flatten_shellChars]
  by_cases hnil : param = []
  · rw [hnil]
    rfl
  · rw [if_neg hnil, if_neg]
    simpa [shellChars_eq_nil] using hnil

theorem length_splitFields (qs : List Text) :
    (qs.flatMap (splitFields ifs)).flatten.length ≤ qs.flatten.length ∧
      ((qs.flatMap (splitFields ifs)).flatten.length = qs.flatten.length →
        ∀ q ∈ qs, ∀ unit ∈ shellChars q, unit ∉ shellChars ifs) := by
  induction qs with
  | nil => exact ⟨Nat.le_refl _, fun _ => nofun⟩
  | cons q qs ih =>
    have hq := @length_keptText ifs (shellChars q) fun _ => shellChars_ne_nil
    rw [flatten_shellChars] at hq
    rw [flatMap_cons, flatten_append, flatten_splitFields, flatten_cons,
      length_append, length_append]
    refine ⟨by omega, fun heq => forall_mem_cons.mpr ⟨hq.2 (by omega), ih.2 ?_⟩⟩
    omega

/-- Without separators only empty parameters are dropped. -/
theorem splitFields_filter {qs : List Text}
    (h : ∀ q ∈ qs, ∀ unit ∈ shellChars q, unit ∉ shellChars ifs) :
    qs.flatMap (splitFields ifs) = qs.filter (· ≠ []) := by
  induction qs with
  | nil => rfl
  | cons q qs ih =>
    rw [forall_mem_cons] at h
    rw [flatMap_cons, ih h.2, splitFields_of_kept h.1]
    by_cases hq : q = []
    · rw [if_pos hq, filter_cons_of_neg (by simpa using hq)]
      rfl
    · rw [if_neg hq, filter_cons_of_pos (by simpa using hq)]
      rfl

/-- **Splitting changes nothing** exactly when every parameter is one field as it
is. -/
theorem splitFields_eq_self :
    ps.flatMap (splitFields ifs) = ps ↔ ∀ param ∈ ps, OneField ifs param := by
  constructor
  · intro h
    have hkept := (length_splitFields ps).2 (by rw [h])
    rw [splitFields_filter hkept, filter_eq_self] at h
    exact fun param hmem => ⟨of_decide_eq_true (h param hmem), hkept param hmem⟩
  · intro h
    rw [splitFields_filter fun q hq => (h q hq).2, filter_eq_self]
    exact fun param hmem => decide_eq_true (h param hmem).1

/-! ## The machine -/

/-- Quoted text. -/
def literalFragment (text : Text) : ExpandedWord := ⟨text, false, false⟩

theorem codeChunk_unsplit (value : Text) (brk : Bool) :
    codeChunk ifs ⟨value, false, brk⟩ = ⟨brk, [.keep value]⟩ := by
  simp [codeChunk, fragmentPieces]

theorem keep_isKeep (text : Text) : ∀ p ∈ [Piece.keep text], p.isKeep = true := by
  intro p hp
  rw [mem_singleton.mp hp]
  rfl

theorem runFrom_literals (texts : List Text) (s : State Char) (cs : List (Chunk Char)) :
    runFrom restart s ((texts.map literalFragment).map (codeChunk ifs) ++ cs) =
      runFrom restart (if texts = [] then s else .word (s.text ++ texts.flatten)) cs := by
  induction texts generalizing s with
  | nil => rfl
  | cons text texts ih =>
    rw [map_cons, map_cons, cons_append, literalFragment, codeChunk_unsplit,
      runFrom_restart_keep _ _ _ (keep_isKeep text), ih, if_neg (cons_ne_nil _ _),
      if_neg (cons_ne_nil _ _)]
    dsimp only [breakWord]
    by_cases htexts : texts = []
    · simp [htexts, Piece.text]
    · simp [htexts, Piece.text, State.text, State.pending]

/-- A fragment of kept text that begins a word. -/
structure Begins (chunk : Chunk Char) (text : Text) : Prop where
  word_break : chunk.word_break = true
  keep : ∀ p ∈ chunk.pieces, p.isKeep = true
  ne_nil : chunk.pieces ≠ []
  text : chunk.pieces.flatMap Piece.text = text

theorem Begins.unsplit (text : Text) : Begins (codeChunk ifs ⟨text, false, true⟩) text := by
  rw [codeChunk_unsplit]
  exact ⟨rfl, keep_isKeep text, cons_ne_nil _ _, by simp [Piece.text]⟩

theorem Begins.split (h : OneField ifs param) : Begins (codeChunk ifs ⟨param, true, true⟩) param := by
  by_cases hifs : ifs.isEmpty
  · have hchunk : codeChunk ifs ⟨param, true, true⟩ = ⟨true, [.keep param]⟩ := by
      simp [codeChunk, hifs]
    rw [hchunk]
    exact ⟨rfl, keep_isKeep param, cons_ne_nil _ _, by simp [Piece.text]⟩
  · have hchunk : codeChunk ifs ⟨param, true, true⟩ =
        ⟨true, (shellChars param).map (classify (ifsWs ifs) (ifsNws ifs))⟩ := by
      simp [codeChunk, fragmentPieces, hifs]
    rw [hchunk]
    refine ⟨rfl, ?_, ?_, ?_⟩
    · intro p hp
      obtain ⟨unit, hunit, rfl⟩ := mem_map.mp hp
      exact classify_isKeep.mpr (h.2 unit hunit)
    · simpa [shellChars_eq_nil] using h.1
    · have htext := flatten_splitFields ifs param
      rw [splitFields_of_kept h.2, if_neg h.1, flatten_singleton] at htext
      exact htext.symm

theorem runFrom_finish (s : State Char) : runFrom restart s [] = finish s := rfl

theorem runFrom_params (h : ∀ param ∈ ps, Begins (chunk param) param)
    (field : Text) (post : List Text) :
    runFrom restart (.word field)
        (ps.map chunk ++ (post.map literalFragment).map (codeChunk ifs)) =
      endWith post.flatten (field :: ps) := by
  induction ps generalizing field with
  | nil =>
    rw [map_nil, nil_append, ← append_nil (List.map _ _), runFrom_literals,
      runFrom_finish]
    by_cases hpost : post = [] <;> simp [hpost, finish, State.text, State.pending, endWith]
  | cons param ps ih =>
    rw [forall_mem_cons] at h
    obtain ⟨hbreak, hkeep, hne, htext⟩ := h.1
    rw [map_cons, cons_append, runFrom_restart_keep _ _ _ hkeep, hbreak, if_neg hne,
      htext, endWith_cons_cons]
    exact congrArg (field :: ·) (ih h.2 param)

/-- **`$@` and `"$@"`**: each parameter is a field. -/
theorem fieldSplit_at (pre post ps : List Text) :
    fieldSplit (pre.map literalFragment ++
        (ps.mapIdx fun index arg => ⟨arg, false, decide (0 < index)⟩) ++
        post.map literalFragment) ifs = attach pre post ps := by
  rw [fieldSplit_eq_runFrom, map_append, map_append, append_assoc,
    runFrom_literals]
  cases ps with
  | nil =>
    rw [mapIdx_nil, map_nil, nil_append, ← append_nil (List.map _ _),
      runFrom_literals, runFrom_finish, attach]
    by_cases hpre : pre = [] <;> by_cases hpost : post = [] <;>
      simp [hpre, hpost, finish, State.text, State.pending]
  | cons first rest =>
    have hrest : (rest.mapIdx fun index arg =>
        (⟨arg, false, decide (0 < index + 1)⟩ : ExpandedWord)) =
        rest.map fun arg => ⟨arg, false, true⟩ := by
      induction rest with
      | nil => rfl
      | cons arg rest ih =>
        rw [mapIdx_cons, map_cons, ← ih]
        simp
    have htext : (if pre = [] then State.start else .word (State.start.text ++ pre.flatten)).text =
        pre.flatten := by
      split
      · next hpre => simp [hpre, State.text, State.pending]
      · rfl
    have hfirst : [Piece.keep first].flatMap Piece.text = first := by simp [Piece.text]
    rw [mapIdx_cons, hrest, map_cons, cons_append, codeChunk_unsplit,
      runFrom_restart_keep _ _ _ (keep_isKeep first), if_neg (cons_ne_nil _ _), map_map,
      hfirst]
    simp only [breakWord, Nat.lt_irrefl, decide_false, Bool.false_eq_true, if_false, htext,
      nil_append]
    exact runFrom_params (fun param _ => .unsplit param) _ post

/-- What the text before makes of its own when a fragment behind it begins a word. -/
def apart (pre : List Text) : List Text := if pre = [] then [] else [pre.flatten]

theorem breakWord_literals (pre : List Text) :
    breakWord true (if pre = [] then State.start else .word (State.start.text ++ pre.flatten)) =
      (apart pre, .start) := by
  rw [apart]
  split <;> rfl

/-- `$*`, when its parameters are one field each: the text before it stays apart. -/
theorem fieldSplit_star (pre post : List Text) (hne : ps ≠ [])
    (h : ∀ param ∈ ps, OneField ifs param) :
    fieldSplit (pre.map literalFragment ++ ps.map (fun arg => ⟨arg, true, true⟩) ++
        post.map literalFragment) ifs = apart pre ++ attach [] post ps := by
  rw [fieldSplit_eq_runFrom, map_append, map_append, append_assoc,
    runFrom_literals, map_map]
  cases ps with
  | nil => exact absurd rfl hne
  | cons first rest =>
    rw [forall_mem_cons] at h
    obtain ⟨hbreak, hkeep, hsome, htext⟩ := Begins.split h.1
    rw [map_cons, cons_append, Function.comp_apply,
      runFrom_restart_keep _ _ _ hkeep, hbreak, if_neg hsome, htext, breakWord_literals]
    exact congrArg (apart pre ++ ·)
      (runFrom_params (fun param hparam => .split (h.2 param hparam)) first post)

/-- `$*` with one empty parameter. -/
theorem fieldSplit_star_empty (pre post : List Text) :
    fieldSplit (pre.map literalFragment ++ [⟨[], true, true⟩] ++ post.map literalFragment) ifs =
      apart pre ++ if ifs = [] then [post.flatten] else apart post := by
  have hkeep : ∀ p ∈ (codeChunk ifs ⟨[], true, true⟩).pieces, p.isKeep = true := by
    cases ifs <;> simp [codeChunk, fragmentPieces, shellChars, Piece.isKeep]
  have hposts : ∀ s : State Char,
      runFrom restart s ((post.map literalFragment).map (codeChunk ifs)) =
        finish (if post = [] then s else .word (s.text ++ post.flatten)) := by
    intro s
    rw [← append_nil (List.map _ _), runFrom_literals, runFrom_finish]
  rw [fieldSplit_eq_runFrom, map_append, map_append, append_assoc,
    runFrom_literals, map_singleton, singleton_append,
    runFrom_restart_keep _ _ _ hkeep, hposts,
    show (codeChunk ifs ⟨[], true, true⟩).word_break = true from rfl, breakWord_literals, apart,
    apart]
  by_cases hifs : ifs = [] <;> by_cases hpost : post = [] <;>
    simp [hifs, hpost, codeChunk, fragmentPieces, shellChars, finish, State.text, State.pending,
      Piece.text]

/-! ## Marks in the fields -/

theorem marks_protect {texts : List Text} (h : ∀ text ∈ texts, IsShellText text) (enabled : Bool) :
    List.Forall₂ Marks (texts.map (protectGlobs · enabled)) texts := by
  induction texts with
  | nil => exact .nil
  | cons text texts ih =>
    rw [forall_mem_cons] at h
    exact .cons (.protect h.1 enabled) (ih h.2)

section Marked

variable {pre' post' fields fields' : List Text}

theorem marks_endWith (hlast : Marks last' last)
    (h : List.Forall₂ Marks fields' fields) :
    List.Forall₂ Marks (endWith last' fields') (endWith last fields) := by
  induction h with
  | nil => exact .nil
  | cons hfield hfields ih =>
    cases hfields with
    | nil => exact .cons (hfield.append hlast) .nil
    | cons hnext hfields => exact .cons hfield ih

theorem marks_attach (hpre : List.Forall₂ Marks pre' pre) (hpost : List.Forall₂ Marks post' post)
    (h : List.Forall₂ Marks fields' fields) :
    List.Forall₂ Marks (attach pre' post' fields') (attach pre post fields) := by
  have hflatten := (Marks.flatten hpre).append (Marks.flatten hpost)
  cases h with
  | cons hfield hfields =>
    exact marks_endWith (Marks.flatten hpost) (.cons ((Marks.flatten hpre).append hfield) hfields)
  | nil =>
    rw [attach, attach]
    cases hpre with
    | cons => exact .cons hflatten .nil
    | nil =>
      cases hpost with
      | nil => exact .nil
      | cons => exact .cons hflatten .nil

theorem marks_apart (hpre : List.Forall₂ Marks pre' pre) :
    List.Forall₂ Marks (apart pre') (apart pre) := by
  cases hpre with
  | nil => exact .nil
  | cons h hs => exact .cons (Marks.flatten (.cons h hs)) .nil

theorem map_remove (h : List.Forall₂ Marks fields' fields) :
    fields'.map removeGlobEscapes = fields := by
  induction h with
  | nil => rfl
  | cons hfield _ ih => rw [map_cons, hfield.remove, ih]

end Marked

/-! ## The words -/

/-- A quoted string; `""` has no parts. -/
inductive QuotedLiteral where
  | single (text : ShellBytes)
  | double (text : ShellBytes)
  | empty

namespace QuotedLiteral

def part : QuotedLiteral → WordPart
  | single text => .SingleQuoted text
  | double text => .DoubleQuoted [.Literal text]
  | empty => .DoubleQuoted []

def text : QuotedLiteral → Text
  | single text => bytesToStr text
  | double text => bytesToStr text
  | empty => []

theorem isShellText (literal : QuotedLiteral) : IsShellText literal.text := by
  cases literal with
  | single text => exact .bytesToStr text
  | double text => exact .bytesToStr text
  | empty => exact .nil

end QuotedLiteral

/-- A part between quoted strings. -/
def between (pre post : List QuotedLiteral) (part : WordPart) : Word :=
  ⟨pre.map QuotedLiteral.part ++ part :: post.map QuotedLiteral.part⟩

def atParam (span : Span) : WordPart := .Param ⟨['@'], .Normal, span⟩
def starParam (span : Span) : WordPart := .Param ⟨['*'], .Normal, span⟩
def quotedAt (span : Span) : WordPart := .DoubleQuoted [atParam span]

section Expansion

variable (out : Outside W) (subst : Command → ShellM W Text)

/-- A word expands to the fields, and nothing else happens. -/
def Expands (word : Word) (m : Machine W) (fields : List Text) : Prop :=
  ∃ bound, ∀ n, bound ≤ n → expandFields out subst n word m = some (.ok fields, m)

/-- A part of an unquoted word has the fragments. -/
def Gives (part : WordPart) (m : Machine W) (fragments : List ExpandedWord) : Prop :=
  ∀ n, 5 ≤ n → expandWordPart out subst n part false false true m = some (.ok fragments, m)

variable {out subst} {m : Machine W}

theorem Expands.unique {word fields others}
    (h : Expands out subst word m fields) (h' : Expands out subst word m others) :
    fields = others := by
  obtain ⟨bound, h⟩ := h
  obtain ⟨bound', h'⟩ := h'
  have heq := (h _ (Nat.le_max_left bound bound')).symm.trans (h' _ (Nat.le_max_right bound bound'))
  cases heq
  rfl

theorem gives_literal (literal : QuotedLiteral) :
    Gives out subst literal.part m [literalFragment (protectGlobs literal.text true)] := by
  intro n hn
  obtain ⟨n, rfl⟩ := Nat.exists_eq_add_of_le' hn
  cases literal with
  | single text => rfl
  | double text =>
    have hjoin : joinValues [⟨bytesToStr text, false, false⟩] = bytesToStr text := by
      simp [joinValues]
    refine (show _ = some (Ending.ok [literalFragment (protectGlobs
      (joinValues [⟨bytesToStr text, false, false⟩]) true)], m) from rfl).trans ?_
    rw [hjoin]
    rfl
  | empty => rfl

theorem gives_at (span : Span) :
    Gives out subst (atParam span) m (positionalFragments m.shell.vars false) := by
  intro n hn
  obtain ⟨n, rfl⟩ := Nat.exists_eq_add_of_le' hn
  rfl

theorem gives_star (span : Span) :
    Gives out subst (starParam span) m
      (m.shell.vars.positionalShellStrings.map fun arg => ⟨arg, true, true⟩) := by
  intro n hn
  obtain ⟨n, rfl⟩ := Nat.exists_eq_add_of_le' hn
  rfl

theorem gives_quotedAt (span : Span) :
    Gives out subst (quotedAt span) m (positionalFragments m.shell.vars true) := by
  intro n hn
  obtain ⟨n, rfl⟩ := Nat.exists_eq_add_of_le' hn
  show some (Ending.ok (positionalFragments m.shell.vars true ++ []), m) = _
  rw [append_nil]

theorem inner_run {items : List (WordPart × List ExpandedWord)}
    (h : ∀ item ∈ items, Gives out subst item.1 m item.2) (hn : items.length + 6 ≤ n) :
    expandWordPartsInner out subst n (items.map Prod.fst) false false true m =
      some (.ok (items.flatMap Prod.snd), m) := by
  induction items generalizing n with
  | nil =>
    obtain ⟨n, rfl⟩ := Nat.exists_eq_add_of_le' hn
    rfl
  | cons item items ih =>
    rw [forall_mem_cons] at h
    rw [length_cons] at hn
    obtain ⟨n, rfl⟩ : ∃ k, n = k + 1 := ⟨n - 1, by omega⟩
    rw [map_cons, expandWordPartsInner, bind_ok (h.1 n (by omega)),
      bind_ok (ih h.2 (by omega)), flatMap_cons]
    rfl

theorem globFields_noglob (hnoglob : m.shell.opts.noglob = true) (fields : List Text) :
    globFields out fields m = some (.ok (fields.map removeGlobEscapes), m) := by
  induction fields with
  | nil => rfl
  | cons field fields ih =>
    have hsh : getShell m = some (.ok m.shell, m) := rfl
    have hoff : ¬ (!m.shell.opts.noglob && out.hasGlobChars field) = true := by simp [hnoglob]
    rw [globFields, bind_ok hsh]
    refine (congrFun (if_neg hoff) m).trans ?_
    rw [pure_bind]
    exact bind_ok ih

/-- **A word of quoted strings around a part** has the fields of their fragments. -/
theorem expands_between (hnoglob : m.shell.opts.noglob = true) (pre post : List QuotedLiteral)
    {part : WordPart} (h : Gives out subst part m fragments) :
    Expands out subst (between pre post part) m
      ((fieldSplit ((pre.map fun q => protectGlobs q.text true).map literalFragment ++ fragments ++
        (post.map fun q => protectGlobs q.text true).map literalFragment)
        m.shell.vars.ifs).map removeGlobEscapes) := by
  let item : QuotedLiteral → WordPart × List ExpandedWord :=
    fun q => (q.part, [literalFragment (protectGlobs q.text true)])
  let items := pre.map item ++ (part, fragments) :: post.map item
  have hitems : ∀ entry ∈ items, Gives out subst entry.1 m entry.2 := by
    intro entry hentry
    simp only [items, mem_append, mem_cons, mem_map] at hentry
    rcases hentry with ⟨q, -, rfl⟩ | rfl | ⟨q, -, rfl⟩
    · exact gives_literal q
    · exact h
    · exact gives_literal q
  have hflat : ∀ literals : List QuotedLiteral, (literals.map item).flatMap Prod.snd =
      (literals.map fun q => protectGlobs q.text true).map literalFragment := by
    intro literals
    rw [flatMap_map, map_map, map_eq_flatMap]
    rfl
  have hparts : (between pre post part).parts = items.map Prod.fst := by
    rw [map_append, map_cons, map_map, map_map]
    rfl
  refine ⟨items.length + 6, fun n hn => ?_⟩
  have hinner := inner_run hitems hn
  have hsh : getShell m = some (.ok m.shell, m) := rfl
  rw [expandFields, hparts, bind_ok hinner, bind_ok hsh, globFields_noglob hnoglob]
  simp only [items, flatMap_append, flatMap_cons, hflat, append_assoc]

/-! ## The three forms -/

/-- The condition on the input: without parameters; with parameters that are one
field each, behind nothing; or with one empty parameter and text on one side, which
has to be behind it when `IFS` is empty. -/
def Attaches (ifs : Text) (pre post : List QuotedLiteral) (ps : List Text) : Prop :=
  ps = [] ∨ (pre = [] ∧ ∀ param ∈ ps, OneField ifs param) ∨
    (ps = [[]] ∧ ((pre = [] ∧ post ≠ []) ∨ (pre ≠ [] ∧ post = [] ∧ ifs ≠ [])))

section Forms

variable {pre post : List QuotedLiteral} (span : Span)

/-- The texts of quoted strings. -/
def texts (literals : List QuotedLiteral) : List Text := literals.map QuotedLiteral.text

theorem texts_eq_nil : texts literals = [] ↔ literals = [] :=
  map_eq_nil_iff

theorem marks_texts (literals : List QuotedLiteral) :
    List.Forall₂ Marks (literals.map fun q => protectGlobs q.text true) (texts literals) := by
  have htexts : ∀ text ∈ texts literals, IsShellText text := by
    intro text hmem
    obtain ⟨q, -, rfl⟩ := mem_map.mp hmem
    exact q.isShellText
  have h := marks_protect htexts true
  rw [texts, map_map] at h
  exact h

theorem marks_positional (vars : Variables) (protect : Bool) :
    List.Forall₂ Marks (vars.positionalShellStrings.map (protectGlobs · protect))
      vars.positionalShellStrings :=
  marks_protect (fun _ hmem => isShellText_positional hmem) protect

theorem positionalFragments_eq (vars : Variables) (protect : Bool) :
    positionalFragments vars protect =
      (vars.positionalShellStrings.map (protectGlobs · protect)).mapIdx fun index arg =>
        ⟨arg, false, decide (0 < index)⟩ := by
  rw [positionalFragments]
  apply ext_getElem
  · simp
  · intro i h₁ h₂
    simp

/-- **Each parameter is a field** of `"$@"`, and of `$@` too. -/
theorem expands_at (hnoglob : m.shell.opts.noglob = true) {part protect}
    (h : Gives out subst part m (positionalFragments m.shell.vars protect)) :
    Expands out subst (between pre post part) m
      (attach (texts pre) (texts post) m.shell.vars.positionalShellStrings) := by
  have hexpands := expands_between hnoglob pre post h
  have hmarks := marks_attach (marks_texts pre) (marks_texts post)
    (marks_positional m.shell.vars protect)
  rw [positionalFragments_eq, fieldSplit_at, map_remove hmarks] at hexpands
  exact hexpands

theorem expands_star (hnoglob : m.shell.opts.noglob = true)
    (hne : m.shell.vars.positionalShellStrings ≠ [])
    (h : ∀ param ∈ m.shell.vars.positionalShellStrings, OneField m.shell.vars.ifs param) :
    Expands out subst (between pre post (starParam span)) m
      (apart (texts pre) ++ attach [] (texts post) m.shell.vars.positionalShellStrings) := by
  have hexpands := expands_between hnoglob pre post (@gives_star _ out subst m span)
  have hmarks := marks_attach .nil (marks_texts post) (marks_positional m.shell.vars false)
  rw [fieldSplit_star _ _ hne h, map_append, map_remove (marks_apart (marks_texts pre))]
    at hexpands
  have hplain : m.shell.vars.positionalShellStrings.map (protectGlobs · false) =
      m.shell.vars.positionalShellStrings := map_id _
  rw [hplain] at hmarks
  rw [map_remove hmarks] at hexpands
  exact hexpands

/-- Without parameters `$*` is `$@`. -/
theorem expands_star_nil (hnoglob : m.shell.opts.noglob = true)
    (hps : m.shell.vars.positionalShellStrings = []) :
    Expands out subst (between pre post (starParam span)) m (attach (texts pre) (texts post) []) := by
  have hgives := @gives_star _ out subst m span
  have hat : positionalFragments m.shell.vars false = [] := by
    rw [positionalFragments_eq, hps]
    rfl
  rw [hps, map_nil, ← hat] at hgives
  have hexpands := @expands_at _ out subst m pre post hnoglob _ _ hgives
  rwa [hps] at hexpands

theorem expands_star_empty (hnoglob : m.shell.opts.noglob = true)
    (hps : m.shell.vars.positionalShellStrings = [[]]) :
    Expands out subst (between pre post (starParam span)) m (apart (texts pre) ++
      if m.shell.vars.ifs = [] then [(texts post).flatten] else apart (texts post)) := by
  have hexpands := expands_between hnoglob pre post (@gives_star _ out subst m span)
  have hpost : ∀ {marked unmarked : List Text}, List.Forall₂ Marks marked unmarked →
      (if m.shell.vars.ifs = [] then [marked.flatten] else apart marked).map removeGlobEscapes =
        if m.shell.vars.ifs = [] then [unmarked.flatten] else apart unmarked := by
    intro marked unmarked h
    split
    · exact map_remove (.cons (Marks.flatten h) .nil)
    · exact map_remove (marks_apart h)
  rw [hps, map_singleton, fieldSplit_star_empty, map_append,
    map_remove (marks_apart (marks_texts pre)), hpost (marks_texts post)] at hexpands
  exact hexpands

theorem splitFields_nil (ifs : Text) : splitFields ifs [] = [] :=
  splitFields_of_kept fun _ hmem => absurd hmem not_mem_nil

theorem length_attach_cons (pre post : List Text) (first : Text) (rest : List Text) :
    (attach pre post (first :: rest)).length = rest.length + 1 :=
  length_endWith _ _

/-- The fields of `$*`, when those of `$@` are right. -/
theorem star_iff (hps : m.shell.vars.positionalShellStrings = ps)
    (hifs : m.shell.vars.ifs = ifs) (hnoglob : m.shell.opts.noglob = true) (hne : ps ≠ [])
    (hall : ∀ param ∈ ps, OneField ifs param) :
    Expands out subst (between pre post (starParam span)) m (attach (texts pre) (texts post) ps) ↔
      pre = [] := by
  subst hps hifs
  have hstar := @expands_star _ out subst m pre post span hnoglob hne hall
  constructor
  · intro h
    have heq := congrArg List.length (hstar.unique h)
    obtain ⟨first, rest, hcons⟩ := exists_cons_of_ne_nil hne
    rw [hcons, length_append, length_attach_cons, length_attach_cons, apart] at heq
    by_contra hpre
    rw [if_neg (mt texts_eq_nil.mp hpre), length_singleton] at heq
    omega
  · rintro rfl
    exact hstar

/-- **The positional parameters in a word**: the quoted form is right, and the two
unquoted ones are exactly on the inputs of `Attaches`. -/
theorem positional_iff (hnoglob : m.shell.opts.noglob = true) :
    (Expands out subst (between pre post (quotedAt span)) m
        (attach (texts pre) (texts post) m.shell.vars.positionalShellStrings) ∧
      Expands out subst (between pre post (atParam span)) m (attach (texts pre) (texts post)
        (m.shell.vars.positionalShellStrings.flatMap (splitFields m.shell.vars.ifs))) ∧
      Expands out subst (between pre post (starParam span)) m (attach (texts pre) (texts post)
        (m.shell.vars.positionalShellStrings.flatMap (splitFields m.shell.vars.ifs)))) ↔
      Attaches m.shell.vars.ifs pre post m.shell.vars.positionalShellStrings := by
  have hquoted := @expands_at _ out subst m pre post hnoglob _ _ (gives_quotedAt span)
  have hat := @expands_at _ out subst m pre post hnoglob _ _ (gives_at span)
  generalize hps : m.shell.vars.positionalShellStrings = ps at *
  generalize hifs : m.shell.vars.ifs = ifs at *
  rw [Attaches]
  by_cases hnil : ps = []
  · -- no parameters
    subst hnil
    exact iff_of_true ⟨hquoted, hat, expands_star_nil span hnoglob hps⟩ (Or.inl rfl)
  have hsame := fun fields' =>
    @attach_eq_attach (texts pre) (texts post) ps fields' hnil
  constructor
  · rintro ⟨-, hat', hstar⟩
    rcases (hsame _).mp (hat.unique hat') with hself | ⟨hempty, hnone, hsome⟩
    · have hall := splitFields_eq_self.mp hself.symm
      rw [← hself] at hstar
      exact Or.inr (Or.inl ⟨(star_iff span hps hifs hnoglob hnil hall).mp hstar, hall⟩)
    · -- one empty parameter
      subst hempty hifs
      have heq := (expands_star_empty span hnoglob hps).unique hstar
      rw [hnone, attach, if_neg (not_and_or.mpr hsome)] at heq
      have hlength := congrArg List.length heq
      refine Or.inr (Or.inr ⟨rfl, ?_⟩)
      by_cases hpre : pre = []
      · refine Or.inl ⟨hpre, ?_⟩
        simpa [hpre, texts_eq_nil] using hsome
      · rw [apart, if_neg (mt texts_eq_nil.mp hpre), length_append] at hlength
        refine Or.inr ⟨hpre, ?_⟩
        by_cases hifs : m.shell.vars.ifs = []
        · simp [hifs] at hlength
        · rw [if_neg hifs, apart] at hlength
          by_cases hpost : texts post = []
          · exact ⟨texts_eq_nil.mp hpost, hifs⟩
          · simp [hpost] at hlength
  · rintro (hnil' | ⟨rfl, hall⟩ | ⟨rfl, hside⟩)
    · exact absurd hnil' hnil
    · rw [splitFields_eq_self.mpr hall]
      exact ⟨hquoted, hat, (star_iff span hps hifs hnoglob hnil hall).mpr rfl⟩
    · have hnone : ([[]] : List Text).flatMap (splitFields ifs) = [] := by
        rw [flatMap_singleton, splitFields_nil]
      have hsome : texts pre ≠ [] ∨ texts post ≠ [] := by
        rw [ne_eq, ne_eq, texts_eq_nil, texts_eq_nil]
        rcases hside with ⟨-, hpost⟩ | ⟨hpre, -⟩
        · exact Or.inr hpost
        · exact Or.inl hpre
      rw [hnone]
      rw [(hsame []).mpr (Or.inr ⟨rfl, rfl, hsome⟩)] at hat
      refine ⟨hquoted, hat, ?_⟩
      have hstar := @expands_star_empty _ out subst m pre post span hnoglob hps
      rw [attach, if_neg (not_and_or.mpr hsome)]
      subst hifs
      rcases hside with ⟨rfl, hpost⟩ | ⟨hpre, rfl, hifs⟩
      · have hposts : (if m.shell.vars.ifs = [] then [(texts post).flatten] else apart (texts post)) =
            [(texts post).flatten] := by
          rw [apart, if_neg (mt texts_eq_nil.mp hpost), ite_self]
        rw [hposts] at hstar
        exact hstar
      · rw [if_neg hifs, apart, if_neg (mt texts_eq_nil.mp hpre)] at hstar
        simpa [texts, apart] using hstar

end Forms

end Expansion

/-! ## Two shells -/

/-- A new shell with `set -f` and the arguments. -/
def Machine.withArgs (args : List Text) : Machine Unit :=
  { Machine.idle with
    shell := {
      vars := { Variables.newClean with positional := args.map ShellBytes.ofText }
      opts := { noglob := true } } }

def noOutput (_ : Command) : ShellM Unit Text := pure []

/-- `$@`, `$*` and `"$@"` with `x` behind them, for two letters. -/
theorem positional_iff_letters :
    Expands .idle noOutput (between [] [.single (.ofText ['x'])] (quotedAt {}))
        (.withArgs [['a'], ['b']]) [['a'], ['b', 'x']] ∧
      Expands .idle noOutput (between [] [.single (.ofText ['x'])] (atParam {}))
        (.withArgs [['a'], ['b']]) [['a'], ['b', 'x']] ∧
      Expands .idle noOutput (between [] [.single (.ofText ['x'])] (starParam {}))
        (.withArgs [['a'], ['b']]) [['a'], ['b', 'x']] := by
  have hfields : ∀ param ∈ (Machine.withArgs [['a'], ['b']]).shell.vars.positionalShellStrings,
      OneField (Machine.withArgs [['a'], ['b']]).shell.vars.ifs param := by
    decide
  exact (@positional_iff _ .idle noOutput (.withArgs [['a'], ['b']]) []
    [.single (.ofText ['x'])] {} rfl).mpr (Or.inr (Or.inl ⟨rfl, hfields⟩))

/-- `$@` does not split its parameters, and `$*` leaves the text before it apart. -/
theorem unquoted_forms_differ :
    ([['a', ' ', 'b']].flatMap (splitFields " \t\n".toList) = [['a'], ['b']] ∧
      ¬ Expands .idle noOutput (between [] [] (atParam {})) (.withArgs [['a', ' ', 'b']])
        [['a'], ['b']]) ∧
    ([['y']].flatMap (splitFields " \t\n".toList) = [['y']] ∧
      ¬ Expands .idle noOutput (between [.single (.ofText ['x'])] [] (starParam {}))
        (.withArgs [['y']]) [['x', 'y']]) := by
  refine ⟨⟨by decide, fun h => ?_⟩, by decide, fun h => ?_⟩
  · have hat : Expands .idle noOutput (between [] [] (atParam {})) (.withArgs [['a', ' ', 'b']])
        [['a', ' ', 'b']] :=
      @expands_at _ .idle noOutput (.withArgs [['a', ' ', 'b']]) [] [] rfl _ _ (gives_at {})
    cases hat.unique h
  · have hstar : Expands .idle noOutput (between [.single (.ofText ['x'])] [] (starParam {}))
        (.withArgs [['y']]) [['x'], ['y']] :=
      @expands_star _ .idle noOutput (.withArgs [['y']]) [.single (.ofText ['x'])] [] {} rfl
        nofun (by decide)
    cases hstar.unique h

end Ish.Epsh
