import Ish.Epsh.Builtins
import Ish.Epsh.Units
import Ish.Lib.LineFields

/-!
# `read` — a line and its fields

The loop of `builtin_read` that takes bytes from standard input until the line ends, and what
the values of its variables should be: the line with each character marked that a backslash
escapes, cut as fields are. `read` resolves the backslashes first and cuts the line that is
left, and takes a newline behind a joined line for part of the join. Where it does read a line
as defined is `ReadsWell`.
-/

namespace Ish.Epsh

open Ish.Lib List

/-! ## The line -/

/-- A line that was read: its bytes, whether the input ended first, and what is left. -/
structure LineRead (α : Type) where
  line : List α
  hit_eof : Bool
  rest : ShellBytes
deriving DecidableEq

def LineRead.cons {α : Type} (a : α) (read : LineRead α) : LineRead α :=
  { read with line := a :: read.line }

def newline : UInt8 := 10

def backslash : UInt8 := 92

/-- The loop of `builtin_read`; `continued` holds behind a backslash and a newline. -/
def readBytes (raw_mode : Bool) : Bool → ShellBytes → LineRead UInt8
  | _, [] => ⟨[], true, []⟩
  | continued, ch :: input =>
    if ch = newline then
      if continued then readBytes raw_mode false input
      else ⟨[], false, input⟩
    else if ch == backslash && !raw_mode then
      match input with
      | [] => ⟨[backslash], true, []⟩
      | ch :: input =>
        if ch = newline then readBytes raw_mode true input
        else (readBytes raw_mode false input).cons ch
    else (readBytes raw_mode false input).cons ch

/-- A line as it is defined: a backslash joins lines or escapes what is behind it. -/
def lineOf (raw_mode : Bool) : ShellBytes → LineRead (UInt8 × Bool)
  | [] => ⟨[], true, []⟩
  | ch :: input =>
    if ch = newline then ⟨[], false, input⟩
    else if ch == backslash && !raw_mode then
      match input with
      | [] => ⟨[(backslash, false)], true, []⟩
      | ch :: input =>
        if ch = newline then lineOf raw_mode input
        else (lineOf raw_mode input).cons (ch, true)
    else (lineOf raw_mode input).cons (ch, false)

/-- A newline ends the line right behind a joined one. -/
def joinsEmpty (raw_mode : Bool) : ShellBytes → Bool
  | [] => false
  | ch :: input =>
    if ch = newline then false
    else if ch == backslash && !raw_mode then
      match input with
      | [] => false
      | ch :: input =>
        if ch = newline then input.head? == some newline || joinsEmpty raw_mode input
        else joinsEmpty raw_mode input
    else joinsEmpty raw_mode input

/-- The line without its marks. -/
def LineRead.plain (read : LineRead (UInt8 × Bool)) : LineRead UInt8 :=
  ⟨read.line.map Prod.fst, read.hit_eof, read.rest⟩

/-! ## The loop reads the line -/

variable (read : LineRead (UInt8 × Bool))

@[simp] theorem LineRead.plain_cons (mark : UInt8 × Bool) :
    (read.cons mark).plain = read.plain.cons mark.1 := rfl

@[simp] theorem LineRead.hit_eof_cons {α : Type} (a : α) (read : LineRead α) :
    (read.cons a).hit_eof = read.hit_eof := rfl

@[simp] theorem LineRead.rest_cons {α : Type} (a : α) (read : LineRead α) :
    (read.cons a).rest = read.rest := rfl

theorem lineOf_newline (raw_mode : Bool) (input : ShellBytes) :
    lineOf raw_mode (newline :: input) = ⟨[], false, input⟩ := by
  rw [lineOf.eq_def]
  rfl

theorem lineOf_cons (hch : ¬ch = newline)
    (hslash : ¬(ch == backslash && !raw_mode) = true) (input : ShellBytes) :
    lineOf raw_mode (ch :: input) = (lineOf raw_mode input).cons (ch, false) := by
  rw [lineOf.eq_def]
  simp only [hch, hslash, if_false, Bool.false_eq_true]

theorem joinsEmpty_newline (raw_mode : Bool) (input : ShellBytes) :
    joinsEmpty raw_mode (newline :: input) = false := by
  rw [joinsEmpty.eq_def]
  rfl

theorem joinsEmpty_cons (hch : ¬ch = newline)
    (hslash : ¬(ch == backslash && !raw_mode) = true) (input : ShellBytes) :
    joinsEmpty raw_mode (ch :: input) = joinsEmpty raw_mode input := by
  rw [joinsEmpty.eq_def]
  simp only [hch, hslash, if_false, Bool.false_eq_true]

/-- The loop takes a byte of its input, or finds the end. -/
theorem readBytes_shorter (raw_mode continued : Bool) (input : ShellBytes) :
    (readBytes raw_mode continued input).hit_eof = true ∨
      (readBytes raw_mode continued input).rest.length < input.length := by
  fun_induction readBytes raw_mode continued input with
  | case1 continued => exact Or.inl rfl
  | case2 input ih =>
    rw [length_cons]
    exact ih.imp_right fun h => by omega
  | case3 continued input => exact Or.inr (by simp)
  | case4 => exact Or.inl rfl
  | case5 continued ch hch hslash input ih =>
    rw [length_cons, length_cons]
    exact ih.imp_right fun h => by omega
  | case6 continued ch hch hslash next input hnext ih =>
    rw [LineRead.hit_eof_cons, LineRead.rest_cons, length_cons, length_cons]
    exact ih.imp_right fun h => by omega
  | case7 continued ch input hch hslash ih =>
    rw [LineRead.hit_eof_cons, LineRead.rest_cons, length_cons]
    exact ih.imp_right fun h => by omega

/-- No newline ends a line right behind a joined one; the input itself follows one if
`continued` holds. -/
def Joins (raw_mode continued : Bool) (input : ShellBytes) : Prop :=
  (continued = true → input.head? ≠ some newline) ∧ joinsEmpty raw_mode input = false

theorem readBytes_eq
    (h : Joins raw_mode continued input) :
    readBytes raw_mode continued input = (lineOf raw_mode input).plain := by
  fun_induction readBytes raw_mode continued input with
  | case1 continued => rfl
  | case2 input ih => exact absurd rfl (h.1 rfl)
  | case3 continued input hcontinued =>
    rw [lineOf_newline]
    rfl
  | case4 continued ch hch hslash =>
    rw [lineOf, if_neg hch, if_pos hslash]
    rfl
  | case5 continued ch hch hslash input ih =>
    have hjoins := h.2
    rw [joinsEmpty, if_neg hch, if_pos hslash] at hjoins
    simp only [if_true, Bool.or_eq_false_iff, beq_eq_false_iff_ne] at hjoins
    rw [lineOf, if_neg hch, if_pos hslash]
    simp only [if_true]
    exact ih ⟨fun _ => hjoins.1, hjoins.2⟩
  | case6 continued ch hch hslash next input hnext ih =>
    have hjoins := h.2
    rw [joinsEmpty, if_neg hch, if_pos hslash] at hjoins
    simp only [hnext, if_false] at hjoins
    rw [lineOf, if_neg hch, if_pos hslash]
    simp only [hnext, if_false]
    rw [ih ⟨nofun, hjoins⟩, LineRead.plain_cons]
  | case7 continued ch input hch hslash ih =>
    have hjoins := h.2
    rw [joinsEmpty_cons hch hslash] at hjoins
    rw [lineOf_cons hch hslash, ih ⟨nofun, hjoins⟩, LineRead.plain_cons]

/-- The input behind the line tells whether the loop took a newline too many. -/
theorem joins_of_readBytes
    (heof : (readBytes raw_mode continued input).hit_eof = (lineOf raw_mode input).hit_eof)
    (hrest : (readBytes raw_mode continued input).rest = (lineOf raw_mode input).rest) :
    Joins raw_mode continued input := by
  fun_induction readBytes raw_mode continued input with
  | case1 continued => exact ⟨nofun, rfl⟩
  | case2 input ih =>
    -- the line ends here, and the loop reads on
    rw [lineOf_newline] at heof hrest
    rcases readBytes_shorter raw_mode false input with h | h
    · rw [heof] at h
      cases h
    · rw [hrest] at h
      exact absurd h (lt_irrefl _)
  | case3 continued input hcontinued =>
    exact ⟨fun h => absurd h hcontinued, joinsEmpty_newline raw_mode input⟩
  | case4 continued ch hch hslash =>
    refine ⟨fun _ h => hch (Option.some.inj h), ?_⟩
    rw [joinsEmpty, if_neg hch, if_pos hslash]
  | case5 continued ch hch hslash input ih =>
    rw [lineOf, if_neg hch, if_pos hslash] at heof hrest
    simp only [if_true] at heof hrest
    obtain ⟨hhead, hjoins⟩ := ih heof hrest
    refine ⟨fun _ h => hch (Option.some.inj h), ?_⟩
    rw [joinsEmpty, if_neg hch, if_pos hslash]
    simp only [if_true, Bool.or_eq_false_iff, beq_eq_false_iff_ne]
    exact ⟨hhead rfl, hjoins⟩
  | case6 continued ch hch hslash next input hnext ih =>
    rw [lineOf, if_neg hch, if_pos hslash] at heof hrest
    simp only [hnext, if_false] at heof hrest
    refine ⟨fun _ h => hch (Option.some.inj h), ?_⟩
    rw [joinsEmpty, if_neg hch, if_pos hslash]
    simp only [hnext, if_false]
    exact (ih heof hrest).2
  | case7 continued ch input hch hslash ih =>
    rw [lineOf_cons hch hslash] at heof hrest
    refine ⟨fun _ h => hch (Option.some.inj h), ?_⟩
    rw [joinsEmpty_cons hch hslash]
    exact (ih heof hrest).2

/-! ## The values -/

/-- Units with a mark for each that a backslash escapes a byte of. -/
def markUnits : List Text → List Bool → List (Text × Bool)
  | [], _ => []
  | unit :: units, flags =>
    (unit, (flags.take (strToBytes unit).length).any id) ::
      markUnits units (flags.drop (strToBytes unit).length)

def LineRead.units (read : LineRead (UInt8 × Bool)) : List (Text × Bool) :=
  markUnits (shellChars (bytesToStr read.plain.line)) (read.line.map Prod.snd)

def isDelimiter (ifs : Text) (unit : Text × Bool) : Bool := (shellChars ifs).contains unit.1

def isBlank (unit : Text × Bool) : Bool := unit.1.all Text.isWhitespace

def fieldText (field : List (Text × Bool)) : Text := (field.map Prod.fst).flatten

/-- The values of `k + 1` variables as they are defined. -/
def lineValues (ifs : Text) (k : Nat) (read : LineRead (UInt8 × Bool)) : List Text :=
  (LineFields.cutLine (isDelimiter ifs) isBlank Prod.snd k read.units).map fieldText

@[simp] theorem markUnits_fst (units : List Text) (flags : List Bool) :
    (markUnits units flags).map Prod.fst = units := by
  induction units generalizing flags with
  | nil => rfl
  | cons unit units ih => rw [markUnits, map_cons, ih]

@[simp] theorem LineRead.units_fst :
    read.units.map Prod.fst = shellChars (bytesToStr read.plain.line) :=
  markUnits_fst _ _

/-- The loop over the variables is the loose reader. -/
theorem readFields_map (ifs : Text) (k : Nat) (units : List (Text × Bool)) :
    readFields (shellChars ifs) k (units.map Prod.fst) =
      (LineFields.looseCut (isDelimiter ifs) isBlank k units).map fieldText := by
  induction k generalizing units with
  | zero =>
    rw [readFields, LineFields.looseCut, map_singleton, ← map_reverse,
      dropWhile_map, ← map_reverse]
    rfl
  | succ k ih =>
    rw [readFields, LineFields.looseCut, map_cons, takeWhile_map, dropWhile_map,
      dropWhile_map, ih]
    rfl

theorem readValues_map (ifs text : Text) (k : Nat) {units : List (Text × Bool)}
    (hunits : units.map Prod.fst = shellChars text) :
    readValues ifs text (k + 1) =
      (LineFields.looseLine (isDelimiter ifs) isBlank k units).map fieldText := by
  cases k with
  | zero =>
    rw [readValues, ← hunits, dropWhile_map, ← map_reverse, dropWhile_map, ← map_reverse]
    rfl
  | succ k =>
    rw [readValues, ← hunits, dropWhile_map, Nat.add_sub_cancel, readFields_map]
    · rfl
    · omega

/-! ## What `read` assigns -/

/-- The operands of `read`. -/
def readNames (args : List Text) : List Text :=
  let operands := args.tail.dropWhile fun arg => arg.head? = some '-'
  if operands.isEmpty then ["REPLY".toList] else operands

def readRaw (args : List Text) : Bool :=
  (args.tail.takeWhile fun arg => arg.head? = some '-').contains "-r".toList

theorem readFields_nil (delimiters : List Text) (k : Nat) :
    readFields delimiters k [] = List.replicate (k + 1) [] := by
  induction k with
  | zero => rfl
  | succ k ih =>
    rw [readFields, replicate_succ]
    exact congrArg ([] :: ·) ih

/-- Missing fields are empty. -/
theorem readValues_nil (ifs : Text) (k : Nat) :
    readValues ifs [] (k + 1) = List.replicate (k + 1) [] := by
  cases k with
  | zero => rfl
  | succ k =>
    rw [readValues]
    · exact readFields_nil (shellChars ifs) (k + 1)
    · omega

/-- **The assignments of `read`**, where the line comes from its loop. -/
theorem builtinRead_run {out : Outside W} {args : List Text} {m after} (hread : out.readLine (readRaw args) m.world =
      (((readBytes (readRaw args) false input).line,
        (readBytes (readRaw args) false input).hit_eof), after)) :
    builtinRead out args m =
      assignAll out "read".toList
        ((readNames args).zip (readValues m.shell.vars.ifs
          (bytesToStr (readBytes (readRaw args) false input).line) (readNames args).length))
        (if (readBytes (readRaw args) false input).hit_eof then .FAILURE else .SUCCESS)
        { m with world := after } := by
  have houtside : outside (out.readLine (readRaw args)) m =
      some (.ok ((readBytes (readRaw args) false input).line,
        (readBytes (readRaw args) false input).hit_eof), { m with world := after }) := by
    show some (Ending.ok (out.readLine (readRaw args) m.world).1,
      { m with world := (out.readLine (readRaw args) m.world).2 }) = _
    rw [hread]
  have hnames : ∃ k, (readNames args).length = k + 1 := by
    unfold readNames
    cases args.tail.dropWhile fun arg => arg.head? = some '-' with
    | nil => exact ⟨0, rfl⟩
    | cons name names => exact ⟨names.length, rfl⟩
  unfold builtinRead
  refine (Process.bind_ok houtside).trans ?_
  generalize readBytes (readRaw args) false input = read
  obtain ⟨line, hit_eof, rest⟩ := read
  dsimp only
  by_cases hempty : (hit_eof && line.isEmpty) = true
  · rw [if_pos hempty]
    rw [Bool.and_eq_true, List.isEmpty_iff] at hempty
    obtain ⟨k, hk⟩ := hnames
    rw [hempty.1, hempty.2, show bytesToStr [] = [] from rfl, hk, readValues_nil, ← hk,
      ← map_const', ← map_prod_left_eq_zip]
    rfl
  · rw [if_neg hempty]
    exact getShell_bind _ _

theorem shellChars_flatten_of_mem (us : List ShellUnit) {units : List Text}
    (h : ∀ unit ∈ units, unit ∈ us.map ShellUnit.text) : shellChars units.flatten = units := by
  induction units with
  | nil => rfl
  | cons unit units ih =>
    obtain ⟨u, -, rfl⟩ := mem_map.mp (h unit mem_cons_self)
    rw [flatten_cons, shellChars_text_append,
      ih fun unit hunit => h unit (mem_cons_of_mem _ hunit)]

theorem map_fst_of_fieldText {left right : List (List (Text × Bool))}
    (hleft : ∀ field ∈ left, ∀ unit ∈ field, unit ∈ read.units)
    (hright : ∀ field ∈ right, ∀ unit ∈ field, unit ∈ read.units)
    (h : left.map fieldText = right.map fieldText) :
    left.map (List.map Prod.fst) = right.map (List.map Prod.fst) := by
  obtain ⟨us, -, hus⟩ := bytesToStr_units read.plain.line
  have hread : ∀ fields : List (List (Text × Bool)),
      (∀ field ∈ fields, ∀ unit ∈ field, unit ∈ read.units) →
      (fields.map fieldText).map shellChars = fields.map (List.map Prod.fst) := by
    intro fields hfields
    rw [map_map]
    refine map_congr_left fun field hfield => ?_
    refine shellChars_flatten_of_mem us fun unit hunit => ?_
    obtain ⟨marked, hmarked, rfl⟩ := mem_map.mp hunit
    rw [← shellChars_units, ← hus, ← LineRead.units_fst]
    exact mem_map_of_mem (hfields field hfield marked hmarked)
  rw [← hread left hleft, ← hread right hright, h]

/-- `read` takes the line and gives its `k + 1` variables the values that are defined. -/
structure ReadsLine (raw_mode : Bool) (ifs : Text) (k : Nat) (input : ShellBytes) : Prop where
  hit_eof : (readBytes raw_mode false input).hit_eof = (lineOf raw_mode input).hit_eof
  rest : (readBytes raw_mode false input).rest = (lineOf raw_mode input).rest
  values : readValues ifs (bytesToStr (readBytes raw_mode false input).line) (k + 1) =
    lineValues ifs k (lineOf raw_mode input)

/-- No empty line is joined to the one that is read, and its fields are those that a run of
delimiters parts. -/
def ReadsWell (raw_mode : Bool) (ifs : Text) (k : Nat) (input : ShellBytes) : Prop :=
  joinsEmpty raw_mode input = false ∧
    LineFields.AlikeLine (isDelimiter ifs) isBlank Prod.snd k (lineOf raw_mode input).units

/-- **Where `read` splits a line as fields are split.** -/
theorem readsLine_iff (raw_mode : Bool) (ifs : Text) (k : Nat) (input : ShellBytes) :
    ReadsLine raw_mode ifs k input ↔ ReadsWell raw_mode ifs k input := by
  have hvalues : ∀ hread : readBytes raw_mode false input = (lineOf raw_mode input).plain,
      (readValues ifs (bytesToStr (readBytes raw_mode false input).line) (k + 1) =
        lineValues ifs k (lineOf raw_mode input) ↔
      LineFields.AlikeLine (isDelimiter ifs) isBlank Prod.snd k (lineOf raw_mode input).units) := by
    intro hread
    rw [hread, readValues_map ifs _ k (LineRead.units_fst _), lineValues,
      ← LineFields.looseLine_iff (f := Prod.fst) fun u v huv => by rw [isDelimiter, isDelimiter, huv]]
    refine ⟨map_fst_of_fieldText (lineOf raw_mode input)
      (fun _ hfield _ => LineFields.mem_of_mem_looseLine hfield)
      (fun _ hfield _ => LineFields.mem_of_mem_cutLine hfield), fun heq => ?_⟩
    have hflatten := congrArg (List.map List.flatten) heq
    rw [map_map, map_map] at hflatten
    exact hflatten
  constructor
  · intro h
    have hjoins := (joins_of_readBytes h.hit_eof h.rest)
    exact ⟨hjoins.2, (hvalues (readBytes_eq hjoins)).mp h.values⟩
  · rintro ⟨hjoins, halike⟩
    have hread : readBytes raw_mode false input = (lineOf raw_mode input).plain :=
      readBytes_eq ⟨nofun, hjoins⟩
    exact ⟨congrArg LineRead.hit_eof hread, congrArg LineRead.rest hread,
      (hvalues hread).mpr halike⟩

/-- With `IFS=:`, `read` loses the empty field of `a::b`, the colons of `:a:` where it has one
variable, the backslash's protection in `a\:b`, and the end of the line behind `a\` and a
newline. -/
theorem read_splits_runs :
    ¬ReadsLine false [':'] 2 [97, 58, 58, 98, 10] ∧ ¬ReadsLine false [':'] 0 [58, 97, 58, 10] ∧
      ¬ReadsLine false [':'] 1 [97, 92, 58, 98, 10] ∧
      ¬ReadsLine false [':'] 0 [97, 92, 10, 10, 98, 10] :=
  ⟨fun h => absurd h.values (by decide), fun h => absurd h.values (by decide),
    fun h => absurd h.values (by decide), fun h => absurd h.rest (by decide)⟩

end Ish.Epsh
