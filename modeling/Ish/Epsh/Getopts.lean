import Ish.Epsh.Eval
import Ish.Epsh.Units
import Ish.Lib.Options

/-!
# The options `getopts` yields

A loop calls `builtin_getopts` with the same option string and arguments until it fails. The
options it is to yield are those of `Ish.Lib.Options`, with the letters of the option string;
the place it has reached is in two variables, `OPTIND` and `_OPTPOS`. The theorem at the end
follows a loop through calls and whatever is done between them.
-/

namespace Ish.Epsh

open Ish.Lib List Options
open Process (bind_ok)
open Option (bind_some getD_some map_some)

variable {W : Type}

/-! ## What the option string says -/

/-- A leading colon asks for silence. -/
def isSilent (optstring : Text) : Bool := optstring.head? = some ':'

/-- The letters of an option string, with the colons behind those that take an argument. -/
def optionLetters (optstring : Text) : List Text :=
  if isSilent optstring then (shellChars optstring).tail else shellChars optstring

/-- What a letter is; the colon is never one. -/
def optionKind (optstring letter : Text) : Options.Kind :=
  if letter = [':'] then .unknown
  else
    match (optionLetters optstring).findIdx? (· == letter) with
    | none => .unknown
    | some pos => if (optionLetters optstring)[pos + 1]? = some [':'] then .argument else .flag

/-- The bytes that are to be found in the name variable and in `OPTARG`. -/
abbrev Answer := Option ShellBytes × Option ShellBytes

/-- What a call is to answer for an option. -/
def answer (silent : Bool) : Options.Found Text → Answer
  | .flag letter => (some (strToBytes letter), none)
  | .argument letter value => (some (strToBytes letter), some (strToBytes value.flatten))
  | .unknown letter =>
    (some (strToBytes ['?']), if silent then some (strToBytes letter) else none)
  | .missing letter =>
    (some (strToBytes (if silent then [':'] else ['?'])),
      if silent then some (strToBytes letter) else none)

/-- What a call has answered. -/
def observed (v : Variables) (name : Text) : Answer :=
  (v.getBytes name, v.getBytes "OPTARG".toList)

/-- The arguments whose options are read. -/
def getoptsArgv (v : Variables) (operands : List Text) : List Text :=
  if operands.isEmpty then v.positionalShellStrings else operands

/-- The options of a list of arguments. -/
def optionsOf (optstring : Text) (argv : List Text) : List (Options.Found Text) :=
  ofArgs ['-'] (optionKind optstring) (argv.map shellChars)

/-- The number of the first operand. -/
def firstOperand (optstring : Text) (argv : List Text) : Nat :=
  argv.length + 1 - (operands ['-'] (sequence ['-'] (optionKind optstring)
    ⟨[], argv.map shellChars⟩).2).length

/-! ## The variables of `getopts` -/

namespace Variables

/-- The value of `OPTIND` as `getopts` reads it. -/
def optind (v : Variables) : Nat := ((v.get "OPTIND".toList).bind parseUsize).getD 1

/-- The value of `_OPTPOS` as `getopts` reads it. -/
def optpos (v : Variables) : Nat := ((v.get "_OPTPOS".toList).bind parseUsize).getD 1

/-- One change: a new value, or no variable any more; a refused one is ignored. -/
def change (v : Variables) : Text × Option Text → Variables
  | (name, some value) => (v.setShell name value).toOption.getD v
  | (name, none) => (v.unset name).toOption.getD v

theorem getBytes_insert (v : Variables) (name other : Text) (var : Var) :
    (v.insert name var).getBytes other = if other = name then var.value else v.getBytes other := by
  unfold getBytes
  rw [binding_insert, Function.update_apply]
  split <;> rfl

theorem isReadonly_insert (v : Variables) (name other : Text) (var : Var) :
    (v.insert name var).isReadonly other =
      if other = name then var.flags.READONLY else v.isReadonly other := by
  unfold isReadonly
  rw [binding_insert, Function.update_apply]
  split <;> rfl

theorem readonly_entry (v : Variables) (name : Text) :
    (v.entry name).flags.READONLY = v.isReadonly name := by
  unfold entry isReadonly
  cases v.binding name <;> rfl

variable {v : Variables} {name : Text}

theorem getBytes_change (h : v.isReadonly name = false) (value : Option Text) (other : Text) :
    (v.change (name, value)).getBytes other =
      if other = name then value.map strToBytes else v.getBytes other := by
  cases value with
  | some value =>
    unfold change setShell setBytes
    dsimp only
    rw [h, if_neg (by simp)]
    exact getBytes_insert v name other _
  | none =>
    unfold change unset
    dsimp only
    rw [h, if_neg (by simp)]
    change ({ v with vars := v.vars.erase name } : Variables).getBytes other = _
    unfold getBytes
    rw [binding_erase, Function.update_apply]
    split <;> rfl

theorem isReadonly_change (value : Option Text) (h : v.isReadonly other = false) :
    (v.change (name, value)).isReadonly other = false := by
  cases hname : v.isReadonly name with
  | true =>
    have hsame : v.change (name, value) = v := by
      cases value <;> simp [change, setShell, setBytes, unset, hname, Except.toOption]
    rw [hsame, h]
  | false =>
    cases value with
    | some value =>
      unfold change setShell setBytes
      dsimp only
      rw [hname, if_neg (by simp)]
      change (v.insert name _).isReadonly other = false
      rw [isReadonly_insert]
      split
      · exact (readonly_entry v name).trans hname
      · exact h
    | none =>
      unfold change unset
      dsimp only
      rw [hname, if_neg (by simp)]
      change ({ v with vars := v.vars.erase name } : Variables).isReadonly other = false
      unfold isReadonly
      rw [binding_erase, Function.update_apply]
      split
      · rfl
      · exact h

theorem positional_change (update : Text × Option Text) :
    (v.change update).positional = v.positional := by
  obtain ⟨name, value⟩ := update
  cases value with
  | some value =>
    unfold change setShell setBytes
    dsimp only
    split <;> rfl
  | none =>
    unfold change unset
    dsimp only
    split <;> rfl

/-- Changes one after the other. -/
def changes (v : Variables) (updates : List (Text × Option Text)) : Variables :=
  updates.foldl change v

variable (updates : List (Text × Option Text))

theorem positional_changes (v : Variables) : (v.changes updates).positional = v.positional := by
  induction updates generalizing v with
  | nil => rfl
  | cons update updates ih =>
    unfold changes at ih ⊢
    rw [foldl_cons, ih, positional_change]

theorem isReadonly_changes {v : Variables}
    (h : v.isReadonly other = false) : (v.changes updates).isReadonly other = false := by
  induction updates generalizing v with
  | nil => exact h
  | cons update updates ih => exact ih (isReadonly_change _ h)

/-- **What changes leave at a name** is the last of them, where none is refused. -/
theorem getBytes_changes {v : Variables}
    (h : ∀ update ∈ updates, v.isReadonly update.1 = false) (other : Text) :
    (v.changes updates).getBytes other =
      match updates.reverse.lookup other with
      | some value => value.map strToBytes
      | none => v.getBytes other := by
  induction updates generalizing v with
  | nil => rfl
  | cons update updates ih =>
    obtain ⟨name, value⟩ := update
    have hfirst := h (name, value) mem_cons_self
    have hrest : ∀ update ∈ updates, (v.change (name, value)).isReadonly update.1 = false :=
      fun update hmem => isReadonly_change value (h update (mem_cons_of_mem _ hmem))
    have hvalue := ih hrest
    change ((v.change (name, value)).changes updates).getBytes other = _
    rw [hvalue, reverse_cons, lookup_append]
    cases updates.reverse.lookup other with
    | some last => rfl
    | none =>
      rw [Option.none_or, getBytes_change hfirst, lookup_cons]
      by_cases hname : other = name
      · rw [if_pos hname, hname, beq_self_eq_true]
      · rw [if_neg hname, beq_false_of_ne hname]
        rfl

/-- Values set to numbers are read as those numbers. -/
theorem get_natText (h : v.getBytes name = some (strToBytes (natText n)))
    (hn : n < 2 ^ 64) : ((v.get name).bind parseUsize).getD 1 = n := by
  have hascii : Ascii.isAscii (natText n) = true := by
    rw [Ascii.isAscii, all_eq_true]
    intro c hc
    have hdigit := Numeral.isDigit_of_mem_toDigits hc
    rw [Char.isDigit_iff_toNat] at hdigit
    rw [decide_eq_true_eq]
    exact Nat.lt_of_le_of_lt hdigit.2 (by decide)
  have hbytes : strToBytes (natText n) = ShellBytes.ofText (natText n) := by
    have hback := strToBytes_bytesToStr (Utf8.encode (natText n))
    rw [bytesToStr_encode hascii] at hback
    exact hback
  have hparse : parseUsize (natText n) = some n := by
    rw [parseUsize, natText, Numeral.parseU64, Numeral.stripPlus_toDigits,
      Numeral.parseDigits_toDigits, bind_some, if_pos hn, map_some,
      UInt64.toNat_ofNat_of_lt' hn]
  rw [get, h, bind_some, hbytes, asUtf8Str_ofText, bind_some, hparse,
    getD_some]

end Variables

/-! ## One call -/

/-- The changes of `setIgnoring`. -/
def written (values : List (Text × Text)) : List (Text × Option Text) :=
  values.map fun value => (value.1, some value.2)

/-- What one letter changes (`builtin_getopts` from the option letter on). -/
def letterChanges (optstring name : Text) (argv arg_chars : List Text) (optind optpos : Nat) :
    List (Text × Option Text) :=
  let opt := arg_chars[optpos]?.getD []
  let optchars := shellChars optstring
  match optchars.findIdx? (· == opt) with
  | some pos =>
    (name, some opt) ::
      if optchars[pos + 1]? = some [':'] then
        if optpos + 1 < arg_chars.length then
          written [("OPTARG".toList, (arg_chars.drop (optpos + 1)).flatten),
            optIndex (optind + 1), optPosition 1]
        else if optind < argv.length then
          written [("OPTARG".toList, argv[optind]?.getD []), optIndex (optind + 2),
            optPosition 1]
        else written [(name, ['?']), optIndex (optind + 1)]
      else ("OPTARG".toList, none) :: written (nextOption optind optpos arg_chars.length)
  | none =>
    written ((if optstring.head? = some ':' then [("OPTARG".toList, opt)] else []) ++
      (name, ['?']) :: nextOption optind optpos arg_chars.length)

/-- The machine with other variables. -/
def Machine.withVars (m : Machine W) (v : Variables) : Machine W :=
  { m with shell := { m.shell with vars := v } }

theorem tryVars_run (f : Variables → Except Text Variables) (m : Machine W) :
    ∃ result, tryVars f m =
      some (.ok result, m.withVars ((f m.shell.vars).toOption.getD m.shell.vars)) := by
  unfold tryVars
  rw [getShell_bind]
  cases f m.shell.vars with
  | ok vars => exact ⟨.ok (), rfl⟩
  | error msg => exact ⟨.error msg, rfl⟩

theorem setShell_run (name value : Text) (m : Machine W) :
    ∃ result, setShell name value m =
      some (.ok result, m.withVars (m.shell.vars.change (name, some value))) :=
  tryVars_run (fun v => v.setShell name value) m

theorem unsetIgnoring_run (name : Text) (m : Machine W) :
    unsetIgnoring name m = some (.ok (), m.withVars (m.shell.vars.change (name, none))) := by
  obtain ⟨result, hunset⟩ := tryVars_run (fun v => v.unset name) m
  unfold unsetIgnoring
  rw [bind_ok hunset]
  rfl

theorem setIgnoring_run (values : List (Text × Text)) (m : Machine W) :
    setIgnoring values m =
      some (.ok (), m.withVars (m.shell.vars.changes (written values))) := by
  induction values generalizing m with
  | nil => rfl
  | cons value values ih =>
    obtain ⟨result, hset⟩ := setShell_run value.1 value.2 m
    rw [setIgnoring, bind_ok hset, ih]
    rfl

variable (out : Outside W)

theorem errMsg_run (msg : Text) (m : Machine W) :
    ∃ w, errMsg out msg m = some (.ok (), { m with world := w }) := ⟨_, rfl⟩

/-- **What one letter does**: its changes, and at most a message. -/
theorem getoptsLetter_run (optstring name : Text) (argv arg_chars : List Text)
    (optind optpos : Nat) (m : Machine W) :
    ∃ w, getoptsLetter out optstring name argv arg_chars optind optpos m =
      some (.ok .SUCCESS, { m.withVars (m.shell.vars.changes
        (letterChanges optstring name argv arg_chars optind optpos)) with world := w }) := by
  unfold getoptsLetter letterChanges
  dsimp only
  cases (shellChars optstring).findIdx? (· == arg_chars[optpos]?.getD []) with
  | some pos =>
    dsimp only
    rw [bind_ok (setIgnoring_run _ m)]
    by_cases hneeds : (shellChars optstring)[pos + 1]? = some [':']
    · rw [if_pos hneeds, if_pos hneeds]
      by_cases hrest : optpos + 1 < arg_chars.length
      · rw [if_pos hrest, if_pos hrest]
        exact ⟨_, bind_ok (setIgnoring_run _ _)⟩
      · rw [if_neg hrest, if_neg hrest]
        by_cases hnext : optind < argv.length
        · rw [if_pos hnext, if_pos hnext]
          exact ⟨_, bind_ok (setIgnoring_run _ _)⟩
        · rw [if_neg hnext, if_neg hnext]
          obtain ⟨w, hmsg⟩ := errMsg_run out ("getopts: option requires argument -- ".toList ++
            arg_chars[optpos]?.getD []) (m.withVars (m.shell.vars.changes
              (written [(name, arg_chars[optpos]?.getD [])])))
          refine ⟨w, ?_⟩
          rw [bind_ok hmsg, bind_ok (setIgnoring_run _ _)]
          rfl
    · rw [if_neg hneeds, if_neg hneeds]
      refine ⟨m.world, ?_⟩
      rw [bind_ok (unsetIgnoring_run _ _), bind_ok (setIgnoring_run _ _)]
      rfl
  | none =>
    dsimp only
    by_cases hsilent : optstring.head? = some ':'
    · rw [if_pos hsilent, if_pos hsilent]
      refine ⟨m.world, ?_⟩
      rw [bind_ok (setIgnoring_run _ m), bind_ok (setIgnoring_run _ _)]
      rfl
    · rw [if_neg hsilent, if_neg hsilent]
      obtain ⟨w, hmsg⟩ := errMsg_run out ("getopts: illegal option -- ".toList ++
        arg_chars[optpos]?.getD []) m
      refine ⟨w, ?_⟩
      rw [bind_ok hmsg, bind_ok (setIgnoring_run _ _)]
      rfl

/-! ## The place the variables say -/

/-- The variables `getopts` writes can be written, and the name variable is another one. -/
structure Ready (v : Variables) (name : Text) : Prop where
  name_ne : name ∉ ["OPTIND".toList, "OPTARG".toList, "_OPTPOS".toList]
  writable : ∀ other ∈ [name, "OPTIND".toList, "OPTARG".toList, "_OPTPOS".toList],
    v.isReadonly other = false

/-- The place in the arguments that the two variables stand for. -/
inductive Stands (argv : List Text) (v : Variables) : Options.Place Text → Prop where
  | between {i : Nat} (hi : i ≤ argv.length) (hindex : v.optind = i + 1) (hpos : v.optpos = 1) :
      Stands argv v ⟨[], (argv.drop i).map shellChars⟩
  | within {i k : Nat} {arg : Text} {letters : List Text} (harg : argv[i]? = some arg)
      (hgroup : shellChars arg = ['-'] :: letters) (hdash : letters ≠ [['-']]) (hk : 1 ≤ k)
      (hlt : k < letters.length) (hindex : v.optind = i + 1) (hpos : v.optpos = k + 1) :
      Stands argv v ⟨letters.drop k, (argv.drop (i + 1)).map shellChars⟩
  | past (hindex : v.optind = argv.length + 1) : Stands argv v ⟨[], []⟩

/-- What a call has to find for its answer to be right: a colon is not looked for among the
letters, silence is not asked for where an argument is missing, and where the answer leaves
`OPTARG` alone it is unset. -/
def Clean (optstring : Text) (v : Variables) : Options.Found Text → Prop
  | .flag _ | .argument .. => True
  | .unknown letter =>
    (letter = [':'] → [':'] ∉ shellChars optstring) ∧
      (isSilent optstring = true ∨ v.getBytes "OPTARG".toList = none)
  | .missing _ => isSilent optstring = false ∧ v.getBytes "OPTARG".toList = none

/-- Rust's lengths. -/
def Sized (argv : List Text) : Prop :=
  argv.length + 1 < 2 ^ 64 ∧ ∀ arg ∈ argv, (shellChars arg).length < 2 ^ 64

theorem findIdx_letters (optstring : Text) {letter : Text} (h : letter ≠ [':']) :
    (isSilent optstring = false → optionLetters optstring = shellChars optstring) ∧
      (isSilent optstring = true →
        shellChars optstring = [':'] :: optionLetters optstring) := by
  unfold optionLetters
  constructor
  · intro hsilent
    rw [hsilent]
    rfl
  · intro hsilent
    rw [hsilent, if_pos rfl]
    unfold isSilent at hsilent
    cases optstring with
    | nil => simp at hsilent
    | cons c rest =>
      have hc : c = ':' := by simpa using hsilent
      subst hc
      rw [shellChars_cons (by decide)]
      rfl

theorem optionKind_eq (optstring : Text) {letter : Text} (h : letter ≠ [':']) :
    optionKind optstring letter =
      match (shellChars optstring).findIdx? (· == letter) with
      | none => .unknown
      | some pos => if (shellChars optstring)[pos + 1]? = some [':'] then .argument else .flag := by
  unfold optionKind
  rw [if_neg h]
  obtain ⟨hloud, hquiet⟩ := findIdx_letters optstring h
  cases hsilent : isSilent optstring with
  | false => rw [hloud hsilent]
  | true =>
    rw [hquiet hsilent, findIdx?_cons, beq_false_of_ne (Ne.symm h)]
    cases (optionLetters optstring).findIdx? (· == letter) with
    | none => rfl
    | some pos => rfl

theorem Variables.changes_append (v : Variables) (front back : List (Text × Option Text)) :
    v.changes (front ++ back) = (v.changes front).changes back := foldl_append

namespace Ready

variable {v : Variables} {name : Text}

theorem changes (h : Ready v name) (updates : List (Text × Option Text)) :
    Ready (v.changes updates) name where
  name_ne := h.name_ne
  writable other hother := Variables.isReadonly_changes updates (h.writable other hother)

/-- The last change of a name, among those `getopts` makes. -/
theorem getBytes (h : Ready v name) {updates : List (Text × Option Text)}
    (hnames : ∀ update ∈ updates,
      update.1 ∈ [name, "OPTIND".toList, "OPTARG".toList, "_OPTPOS".toList]) (other : Text) :
    (v.changes updates).getBytes other =
      match updates.reverse.lookup other with
      | some value => value.map strToBytes
      | none => v.getBytes other :=
  Variables.getBytes_changes updates (fun update hmem => h.writable _ (hnames update hmem)) other

theorem name_ne_index (h : Ready v name) : name ≠ "OPTIND".toList := fun heq =>
  h.name_ne (heq ▸ mem_cons_self)

theorem name_ne_arg (h : Ready v name) : name ≠ "OPTARG".toList := fun heq =>
  h.name_ne (heq ▸ mem_cons_of_mem _ mem_cons_self)

theorem name_ne_position (h : Ready v name) : name ≠ "_OPTPOS".toList := fun heq =>
  h.name_ne (heq ▸ mem_cons_of_mem _ (mem_cons_of_mem _ mem_cons_self))

end Ready

theorem index_ne_arg : "OPTIND".toList ≠ "OPTARG".toList := by decide

theorem arg_ne_position : "OPTARG".toList ≠ "_OPTPOS".toList := by decide

theorem Variables.optind_of_getBytes {v v' : Variables}
    (h : v'.getBytes "OPTIND".toList = v.getBytes "OPTIND".toList) : v'.optind = v.optind := by
  unfold Variables.optind Variables.get
  rw [h]

theorem Variables.optpos_of_getBytes {v v' : Variables}
    (h : v'.getBytes "_OPTPOS".toList = v.getBytes "_OPTPOS".toList) : v'.optpos = v.optpos := by
  unfold Variables.optpos Variables.get
  rw [h]

variable {argv : List Text} {v : Variables} {name : Text}

/-- **The place after a letter** without an argument, in its group or behind it. -/
theorem stands_nextOption (hready : Ready v name) (hsize : Sized argv) {arg : Text}
    {letters : List Text} (harg : argv[i]? = some arg) (hgroup : shellChars arg = ['-'] :: letters)
    (hdash : letters ≠ [['-']]) (hindex : v.optind = i + 1) :
    Stands argv (v.changes (written (nextOption (i + 1) (k + 1) (letters.length + 1))))
        ⟨letters.drop (k + 1), (argv.drop (i + 1)).map shellChars⟩ ∧
      observed (v.changes (written (nextOption (i + 1) (k + 1) (letters.length + 1)))) name =
        observed v name := by
  have hi : i < argv.length := (List.getElem?_eq_some_iff.mp harg).1
  have hlen : letters.length + 1 < 2 ^ 64 := by
    have hlt := hsize.2 arg (mem_of_getElem? harg)
    rwa [hgroup, length_cons] at hlt
  unfold nextOption
  by_cases hend : letters.length + 1 ≤ k + 1 + 1
  · rw [if_pos hend]
    have hvalue := @Ready.getBytes _ _ hready (written [optIndex (i + 1 + 1), optPosition 1])
      (by simp [written, optIndex, optPosition])
    refine ⟨?_, ?_⟩
    · rw [drop_eq_nil_of_le (by omega)]
      exact .between (by omega) (Variables.get_natText (hvalue _) (by have := hsize.1; omega))
        (Variables.get_natText (hvalue _) (by decide))
    · unfold observed
      rw [hvalue, hvalue]
      simp only [written, optIndex, optPosition, map_cons, map_nil, reverse_cons,
        reverse_nil, nil_append, cons_append, lookup_cons, lookup_nil,
        beq_false_of_ne hready.name_ne_position, beq_false_of_ne hready.name_ne_index,
        beq_false_of_ne arg_ne_position, beq_false_of_ne index_ne_arg.symm]
  · rw [if_neg hend]
    have hvalue := @Ready.getBytes _ _ hready (written [optPosition (k + 1 + 1)])
      (by simp [written, optPosition])
    refine ⟨?_, ?_⟩
    · exact .within harg hgroup hdash (by omega) (by omega)
        ((Variables.optind_of_getBytes (hvalue _)).trans hindex)
        (Variables.get_natText (hvalue _) (by omega))
    · unfold observed
      rw [hvalue, hvalue]
      simp only [written, optPosition, map_cons, map_nil, reverse_cons,
        reverse_nil, nil_append, lookup_cons, lookup_nil,
        beq_false_of_ne hready.name_ne_position, beq_false_of_ne arg_ne_position]

theorem stands_argument (hready : Ready v name) (hsize : Sized argv)
    (hi : i ≤ argv.length) (letter value : Text) :
    Stands argv (v.changes ((name, some letter) :: written
        [("OPTARG".toList, value), optIndex (i + 1), optPosition 1]))
        ⟨[], (argv.drop i).map shellChars⟩ ∧
      observed (v.changes ((name, some letter) :: written
        [("OPTARG".toList, value), optIndex (i + 1), optPosition 1])) name =
        (some (strToBytes letter), some (strToBytes value)) := by
  have hvalue := @Ready.getBytes _ _ hready ((name, some letter) :: written
    [("OPTARG".toList, value), optIndex (i + 1), optPosition 1])
    (by simp [written, optIndex, optPosition])
  refine ⟨.between hi (Variables.get_natText (hvalue _) (by have := hsize.1; omega))
    (Variables.get_natText (hvalue _) (by decide)), ?_⟩
  unfold observed
  rw [hvalue, hvalue]
  simp only [written, optIndex, optPosition, map_cons, map_nil, reverse_cons,
    reverse_nil, nil_append, cons_append, lookup_cons,
    beq_false_of_ne hready.name_ne_position, beq_false_of_ne hready.name_ne_index,
    beq_false_of_ne hready.name_ne_arg, beq_false_of_ne arg_ne_position,
    beq_false_of_ne index_ne_arg.symm, beq_self_eq_true, map_some]

theorem stands_missing (hready : Ready v name) (hsize : Sized argv) (letter : Text) :
    Stands argv (v.changes ((name, some letter) :: written
        [(name, ['?']), optIndex (argv.length + 1)])) ⟨[], []⟩ ∧
      observed (v.changes ((name, some letter) :: written
        [(name, ['?']), optIndex (argv.length + 1)])) name =
        (some (strToBytes ['?']), v.getBytes "OPTARG".toList) := by
  have hvalue := @Ready.getBytes _ _ hready ((name, some letter) :: written
    [(name, ['?']), optIndex (argv.length + 1)]) (by simp [written, optIndex])
  refine ⟨.past (Variables.get_natText (hvalue _) hsize.1), ?_⟩
  unfold observed
  rw [hvalue, hvalue]
  simp only [written, optIndex, map_cons, map_nil, reverse_cons,
    reverse_nil, nil_append, cons_append, lookup_cons, lookup_nil,
    beq_false_of_ne hready.name_ne_index, beq_false_of_ne hready.name_ne_arg.symm,
    beq_false_of_ne index_ne_arg.symm, beq_self_eq_true, map_some]

/-- Changes of the name variable and of `OPTARG` leave the index. -/
theorem optind_changes (hready : Ready v name) (updates : List (Text × Option Text))
    (h : ∀ update ∈ updates, update.1 = name ∨ update.1 = "OPTARG".toList) :
    (v.changes updates).optind = v.optind := by
  refine Variables.optind_of_getBytes ?_
  rw [Variables.getBytes_changes]
  · have hnone : updates.reverse.lookup "OPTIND".toList = none := by
      rw [lookup_eq_none_iff]
      intro update hmem
      rw [bne_iff_ne]
      rcases h update (mem_reverse.mp hmem) with heq | heq
      · rw [heq]
        exact hready.name_ne_index.symm
      · rw [heq]
        exact index_ne_arg
    rw [hnone]
  · intro update hmem
    refine hready.writable _ ?_
    rcases h update hmem with heq | heq <;> rw [heq] <;> simp

/-- What a flag leaves in the two variables that are read. -/
theorem observed_flag (hready : Ready v name) (letter : Text) :
    observed (v.changes [(name, some letter), ("OPTARG".toList, none)]) name =
      (some (strToBytes letter), none) := by
  have hvalue := @Ready.getBytes _ _ hready ([(name, some letter), ("OPTARG".toList, none)])
    (by simp)
  unfold observed
  rw [hvalue, hvalue]
  simp only [reverse_cons, reverse_nil, nil_append, cons_append,
    lookup_cons, beq_false_of_ne hready.name_ne_arg, beq_self_eq_true, map_some,
    Option.map_none]

theorem observed_unknown (hready : Ready v name) (silent : Bool) (letter : Text)
    (hclean : silent = true ∨ v.getBytes "OPTARG".toList = none) :
    observed (v.changes (written ((if silent then [("OPTARG".toList, letter)] else []) ++
      [(name, ['?'])]))) name =
        (some (strToBytes ['?']), if silent then some (strToBytes letter) else none) := by
  have hvalue := @Ready.getBytes _ _ hready (written
    ((if silent then [("OPTARG".toList, letter)] else []) ++ [(name, ['?'])]))
    (by cases silent <;> simp [written])
  unfold observed
  rw [hvalue, hvalue]
  cases silent with
  | false =>
    simp only [Bool.false_eq_true, false_or] at hclean
    simp only [written, Bool.false_eq_true, if_false, nil_append, map_cons,
      map_nil, reverse_cons, reverse_nil, lookup_cons, lookup_nil,
      beq_false_of_ne hready.name_ne_arg.symm, beq_self_eq_true, map_some, hclean]
  | true =>
    simp only [written, if_true, cons_append, nil_append, map_cons,
      map_nil, reverse_cons, reverse_nil, lookup_cons,
      beq_false_of_ne hready.name_ne_arg.symm, beq_self_eq_true, map_some]

theorem written_append (front back : List (Text × Text)) :
    written (front ++ back) = written front ++ written back := map_append

variable {optstring : Text}

/-- **One letter** is answered as it is to be, and the variables stand behind it. -/
theorem letter_answers (hready : Ready v name) (hsize : Sized argv)
    {arg letter : Text} {letters rest : List Text} (harg : argv[i]? = some arg)
    (hgroup : shellChars arg = ['-'] :: letters) (hdash : letters ≠ [['-']])
    (hindex : v.optind = i + 1) (hletter : letters.drop k = letter :: rest)
    (hclean : Clean optstring v (letterAt (optionKind optstring) letter rest
      ((argv.drop (i + 1)).map shellChars)).1) :
    Stands argv (v.changes (letterChanges optstring name argv (shellChars arg) (i + 1) (k + 1)))
        (letterAt (optionKind optstring) letter rest
          ((argv.drop (i + 1)).map shellChars)).2 ∧
      observed (v.changes (letterChanges optstring name argv (shellChars arg) (i + 1) (k + 1)))
          name =
        answer (isSilent optstring) (letterAt (optionKind optstring) letter rest
          ((argv.drop (i + 1)).map shellChars)).1 := by
  have hi : i < argv.length := (List.getElem?_eq_some_iff.mp harg).1
  have hk : letters[k]? = some letter := by
    have hhead := congrArg List.head? hletter
    rwa [head?_drop, head?_cons] at hhead
  have hdrop : letters.drop (k + 1) = rest := by
    rw [← drop_drop, hletter]
    rfl
  have hopt : (shellChars arg)[k + 1]?.getD [] = letter := by
    rw [hgroup, getElem?_cons_succ, hk, getD_some]
  have hlen : (shellChars arg).length = letters.length + 1 := by rw [hgroup, length_cons]
  unfold letterChanges
  dsimp only
  rw [hopt, hlen]
  -- the answer of a letter that is not found
  have hunknown (hkind : optionKind optstring letter = .unknown)
      (hfind : (shellChars optstring).findIdx? (· == letter) = none) :
      Stands argv (v.changes (written ((if optstring.head? = some ':' then
            [("OPTARG".toList, letter)] else []) ++
          (name, ['?']) :: nextOption (i + 1) (k + 1) (letters.length + 1))))
          ⟨rest, (argv.drop (i + 1)).map shellChars⟩ ∧
        observed (v.changes (written ((if optstring.head? = some ':' then
            [("OPTARG".toList, letter)] else []) ++
          (name, ['?']) :: nextOption (i + 1) (k + 1) (letters.length + 1)))) name =
          answer (isSilent optstring) (.unknown letter) := by
    unfold letterAt at hclean
    rw [hkind] at hclean
    have hsame : (if optstring.head? = some ':' then [("OPTARG".toList, letter)] else []) =
        if isSilent optstring then [("OPTARG".toList, letter)] else [] := by
      simp [isSilent]
    rw [hsame, append_cons, written_append, Variables.changes_append]
    have hfront := observed_unknown hready (isSilent optstring) letter hclean.2
    have hindex' : (v.changes (written ((if isSilent optstring then
        [("OPTARG".toList, letter)] else []) ++ [(name, ['?'])]))).optind = i + 1 := by
      rw [← hindex]
      refine optind_changes hready _ fun update hmem => ?_
      cases hs : isSilent optstring <;> rw [hs] at hmem <;>
        simp only [written, Bool.false_eq_true, if_false, if_true, nil_append,
          map_append, map_cons, map_nil, cons_append, mem_cons,
          not_mem_nil, or_false] at hmem
      · exact Or.inl (hmem ▸ rfl)
      · rcases hmem with rfl | rfl
        · exact Or.inr rfl
        · exact Or.inl rfl
    have hnext := stands_nextOption (k := k) (hready.changes _) hsize harg hgroup hdash hindex'
    rw [hdrop] at hnext
    exact ⟨hnext.1, hnext.2.trans hfront⟩
  by_cases hcolon : letter = [':']
  · -- the colon is not in the option string, as the call is clean
    have hkind : optionKind optstring letter = .unknown := by
      unfold optionKind
      rw [if_pos hcolon]
    have hfind : (shellChars optstring).findIdx? (· == letter) = none := by
      have habsent := hclean
      unfold letterAt at habsent
      rw [hkind] at habsent
      rw [findIdx?_eq_none_iff]
      intro other hother
      rw [beq_eq_false_iff_ne]
      rintro rfl
      exact habsent.1 hcolon (hcolon ▸ hother)
    rw [hfind]
    unfold letterAt
    rw [hkind]
    exact hunknown hkind hfind
  · have hkind := optionKind_eq optstring hcolon
    cases hfind : (shellChars optstring).findIdx? (· == letter) with
    | none =>
      rw [hfind] at hkind
      unfold letterAt
      rw [hkind]
      exact hunknown hkind hfind
    | some pos =>
      rw [hfind] at hkind
      dsimp only at hkind ⊢
      by_cases htakes : (shellChars optstring)[pos + 1]? = some [':']
      · rw [if_pos htakes] at hkind ⊢
        unfold letterAt at hclean ⊢
        rw [hkind] at hclean ⊢
        dsimp only at hclean ⊢
        cases rest with
        | cons first more =>
          have hmore : k + 1 + 1 < letters.length + 1 := by
            have hlt := congrArg List.length hdrop
            rw [length_drop, length_cons] at hlt
            omega
          rw [if_pos hmore]
          have hvalue : ((shellChars arg).drop (k + 1 + 1)).flatten = (first :: more).flatten := by
            rw [hgroup, drop_succ_cons, hdrop]
          rw [hvalue]
          have hargument := stands_argument hready hsize (i := i + 1) (by omega) letter
            (first :: more).flatten
          exact hargument
        | nil =>
          have hlast : ¬ k + 1 + 1 < letters.length + 1 := by
            have hlt := congrArg List.length hdrop
            rw [length_drop, length_nil] at hlt
            omega
          rw [if_neg hlast]
          cases hnext : argv[i + 1]? with
          | some value =>
            have hlt : i + 1 < argv.length := (List.getElem?_eq_some_iff.mp hnext).1
            have hdropped : argv.drop (i + 1) = value :: argv.drop (i + 2) := by
              rw [drop_eq_getElem_cons hlt, (List.getElem?_eq_some_iff.mp hnext).2]
            rw [if_pos hlt, hdropped, map_cons, getD_some]
            have hargument := stands_argument hready hsize (i := i + 2) (by omega) letter value
            refine ⟨hargument.1, hargument.2.trans ?_⟩
            change _ = (some (strToBytes letter),
              some (strToBytes (shellChars value).flatten))
            rw [shellChars_flatten]
          | none =>
            have hend : argv.length = i + 1 := by
              have := List.getElem?_eq_none_iff.mp hnext
              omega
            have hnil : argv.drop (i + 1) = [] := drop_eq_nil_of_le (by omega)
            rw [if_neg (by omega), hnil, map_nil]
            rw [hnil, map_nil] at hclean
            obtain ⟨hsilent, hunset⟩ := hclean
            have hmissing := stands_missing hready hsize letter
            rw [hend] at hmissing
            refine ⟨hmissing.1, hmissing.2.trans ?_⟩
            unfold answer
            rw [hsilent, hunset]
            rfl
      · rw [if_neg htakes] at hkind ⊢
        unfold letterAt
        rw [hkind]
        dsimp only
        rw [show ∀ next : List (Text × Option Text), (name, some letter) ::
            ("OPTARG".toList, none) :: next = [(name, some letter), ("OPTARG".toList, none)] ++ next
          from fun _ => rfl, Variables.changes_append]
        have hindex' :
            (v.changes [(name, some letter), ("OPTARG".toList, none)]).optind = i + 1 := by
          rw [← hindex]
          refine optind_changes hready _ fun update hmem => ?_
          simp only [mem_cons, not_mem_nil, or_false] at hmem
          rcases hmem with rfl | rfl
          · exact Or.inl rfl
          · exact Or.inr rfl
        have hnext := stands_nextOption (k := k) (hready.changes
          [(name, some letter), ("OPTARG".toList, none)]) hsize harg hgroup hdash hindex'
        rw [hdrop] at hnext
        exact ⟨hnext.1, hnext.2.trans (observed_flag hready letter)⟩

/-! ## A call -/

/-- The arguments `getopts` takes for the end of the options. -/
def endsOptions (arg : Text) : Prop :=
  arg.head? ≠ some '-' ∨ arg = "-".toList ∨ arg = "--".toList

theorem not_endsOptions {arg : Text} {letters : List Text} (hgroup : shellChars arg = ['-'] :: letters)
    (hne : letters ≠ []) (hdash : letters ≠ [['-']]) : ¬ endsOptions arg := by
  have harg : arg = '-' :: letters.flatten := by
    rw [← shellChars_flatten arg, hgroup]
    rfl
  rintro (hhead | hone | htwo)
  · rw [harg] at hhead
    exact hhead rfl
  · rw [hone, show shellChars "-".toList = [['-']] by decide] at hgroup
    exact hne (List.cons.inj hgroup).2.symm
  · rw [htwo, show shellChars "--".toList = [['-'], ['-']] by decide] at hgroup
    exact hdash (List.cons.inj hgroup).2.symm

theorem group_of_not_endsOptions (h : ¬ endsOptions arg) :
    ∃ letter letters, shellChars arg = ['-'] :: letter :: letters ∧
      (letter :: letters) ≠ [['-']] := by
  unfold endsOptions at h
  rw [not_or, not_or, not_not] at h
  obtain ⟨hhead, hone, htwo⟩ := h
  cases arg with
  | nil => cases hhead
  | cons c rest =>
    obtain rfl : c = '-' := Option.some.inj hhead
    have hchars : shellChars ('-' :: rest) = ['-'] :: shellChars rest := shellChars_cons (by decide) rest
    cases hrest : shellChars rest with
    | nil =>
      rw [shellChars_eq_nil] at hrest
      subst hrest
      exact absurd rfl hone
    | cons letter letters =>
      refine ⟨letter, letters, by rw [hchars, hrest], ?_⟩
      rintro hdash
      refine htwo ?_
      rw [← shellChars_flatten rest, hrest, hdash]
      rfl

variable {m : Machine W} {operands : List Text}

theorem builtinGetopts_letter (n : Nat) (command optstring : Text)
    (hargv : getoptsArgv m.shell.vars operands = argv) {arg : Text}
    {letters : List Text} (harg : argv[i]? = some arg) (hgroup : shellChars arg = ['-'] :: letters)
    (hdash : letters ≠ [['-']]) (hindex : m.shell.vars.optind = i + 1)
    (hpos : m.shell.vars.optpos = k + 1) (hk : k < letters.length) :
    builtinGetopts out (n + 1) (command :: optstring :: name :: operands) m =
      getoptsLetter out optstring name argv (shellChars arg) (i + 1) (k + 1) m := by
  have hne : letters ≠ [] := by
    rintro rfl
    exact Nat.not_lt_zero _ hk
  have hopen : ¬ (arg.head? ≠ some '-' ∨ arg = "-".toList ∨ arg = "--".toList) :=
    not_endsOptions hgroup hne hdash
  unfold getoptsArgv at hargv
  unfold Variables.optind at hindex
  unfold Variables.optpos at hpos
  unfold builtinGetopts
  dsimp only [tail_cons]
  rw [getShell_bind, hargv, hindex, if_neg (by omega), Nat.add_sub_cancel, harg]
  dsimp only
  rw [if_neg hopen, hpos, if_neg (by rw [hgroup, length_cons]; omega)]

theorem builtinGetopts_end (n : Nat) (command optstring : Text)
    (hargv : getoptsArgv m.shell.vars operands = argv)
    (hend : ∀ arg, argv[i]? = some arg → endsOptions arg) (hindex : m.shell.vars.optind = i + 1) :
    builtinGetopts out (n + 1) (command :: optstring :: name :: operands) m =
      some (.ok .FAILURE, m.withVars (m.shell.vars.changes [(name, some ['?'])])) := by
  unfold getoptsArgv at hargv
  unfold Variables.optind at hindex
  unfold builtinGetopts
  dsimp only [tail_cons]
  rw [getShell_bind, hargv, hindex, if_neg (by omega), Nat.add_sub_cancel]
  cases harg : argv[i]? with
  | none => exact bind_ok (setIgnoring_run _ m)
  | some arg =>
    have hends : arg.head? ≠ some '-' ∨ arg = "-".toList ∨ arg = "--".toList := hend arg harg
    dsimp only
    rw [if_pos hends]
    exact bind_ok (setIgnoring_run _ m)

theorem Stands.letter {place after : Options.Place Text} (h : Stands argv v place)
    {found : Options.Found Text}
    (hnext : Options.next ['-'] (optionKind optstring) place = some (found, after)) :
    ∃ i k arg letters letter rest, argv[i]? = some arg ∧ shellChars arg = ['-'] :: letters ∧
      letters ≠ [['-']] ∧ v.optind = i + 1 ∧ v.optpos = k + 1 ∧ k < letters.length ∧
      letters.drop k = letter :: rest ∧
      (found, after) = letterAt (optionKind optstring) letter rest
        ((argv.drop (i + 1)).map shellChars) := by
  cases h with
  | @between i hi hindex hpos =>
    cases harg : argv[i]? with
    | none =>
      rw [drop_eq_nil_of_le (List.getElem?_eq_none_iff.mp harg), map_nil,
        Options.next] at hnext
      · cases hnext
      · simp
      · simp
    | some arg =>
      have hlt : i < argv.length := (List.getElem?_eq_some_iff.mp harg).1
      have hdropped : argv.drop i = arg :: argv.drop (i + 1) := by
        rw [drop_eq_getElem_cons hlt, (List.getElem?_eq_some_iff.mp harg).2]
      rw [hdropped, map_cons] at hnext
      cases hchars : shellChars arg with
      | nil => simp [hchars, Options.next] at hnext
      | cons first letters =>
        cases letters with
        | nil => simp [hchars, Options.next] at hnext
        | cons letter rest =>
          rw [hchars, Options.next] at hnext
          split at hnext
          · rename_i hgroup
            obtain ⟨rfl, hdash⟩ := hgroup
            exact ⟨i, 0, arg, letter :: rest, letter, rest, harg, hchars, hdash, hindex,
              hpos, Nat.succ_pos _, rfl, (Option.some.inj hnext).symm⟩
          · cases hnext
  | @within i k arg letters harg hgroup hdash hk hlt hindex hpos =>
    have hdrop : letters.drop k = letters[k] :: letters.drop (k + 1) := drop_eq_getElem_cons hlt
    rw [hdrop, Options.next] at hnext
    exact ⟨i, k, arg, letters, letters[k], letters.drop (k + 1), harg, hgroup, hdash, hindex,
      hpos, hlt, hdrop, (Option.some.inj hnext).symm⟩
  | past hindex => simp [Options.next] at hnext

theorem Stands.ended (h : Stands argv v place)
    (hnext : Options.next ['-'] (optionKind optstring) place = none) :
    ∃ i, v.optind = i + 1 ∧ i ≤ argv.length ∧ place = ⟨[], (argv.drop i).map shellChars⟩ ∧
      ∀ arg, argv[i]? = some arg → endsOptions arg := by
  cases h with
  | @between i hi hindex hpos =>
    refine ⟨i, hindex, hi, rfl, fun arg harg => ?_⟩
    by_contra hopen
    obtain ⟨letter, letters, hchars, hdash⟩ := group_of_not_endsOptions hopen
    have hlt : i < argv.length := (List.getElem?_eq_some_iff.mp harg).1
    have hdropped : argv.drop i = arg :: argv.drop (i + 1) := by
      rw [drop_eq_getElem_cons hlt, (List.getElem?_eq_some_iff.mp harg).2]
    rw [hdropped, map_cons, hchars, Options.next, if_pos ⟨rfl, hdash⟩] at hnext
    cases hnext
  | @within i k arg letters harg hgroup hdash hk hlt hindex hpos =>
    rw [drop_eq_getElem_cons hlt, Options.next] at hnext
    cases hnext
  | past hindex =>
    refine ⟨argv.length, hindex, Nat.le_refl _, by simp, fun arg harg => ?_⟩
    simp at harg

/-! ## Loops -/

/-- A loop over `getopts`: the machine after some of its calls, with what they answered since
`OPTIND` was last 1. Each step is taken as the theorem below needs it: a start finds no place
inside a group, a call finds its option clean, and between calls anything may change but the
place, the arguments and whether the variables can be written. -/
inductive Loop (out : Outside W) (command optstring name : Text) (operands argv : List Text) :
    Machine W → List Answer → Prop where
  | start {m : Machine W} (hready : Ready m.shell.vars name)
      (hargv : getoptsArgv m.shell.vars operands = argv) (hindex : m.shell.vars.optind = 1)
      (hfresh : m.shell.vars.optpos = 1) : Loop out command optstring name operands argv m []
  | call {m m' : Machine W} {seen : List Answer} {n : Nat}
      (h : Loop out command optstring name operands argv m seen)
      (hclean : ∀ found, (optionsOf optstring argv)[seen.length]? = some found →
        Clean optstring m.shell.vars found)
      (hcall : builtinGetopts out (n + 1) (command :: optstring :: name :: operands) m =
        some (.ok .SUCCESS, m')) :
      Loop out command optstring name operands argv m' (seen ++ [observed m'.shell.vars name])
  | body {m m' : Machine W} {seen : List Answer}
      (h : Loop out command optstring name operands argv m seen)
      (hready : Ready m'.shell.vars name) (hargv : getoptsArgv m'.shell.vars operands = argv)
      (hindex : m'.shell.vars.getBytes "OPTIND".toList = m.shell.vars.getBytes "OPTIND".toList)
      (hpos : m'.shell.vars.getBytes "_OPTPOS".toList =
        m.shell.vars.getBytes "_OPTPOS".toList) :
      Loop out command optstring name operands argv m' seen

theorem Stands.congr (h : Stands argv v place)
    (hindex : v'.optind = v.optind) (hpos : v'.optpos = v.optpos) : Stands argv v' place := by
  cases h with
  | between hi hi' hp' => exact .between hi (hindex.trans hi') (hpos.trans hp')
  | within harg hgroup hdash hk hlt hi' hp' =>
    exact .within harg hgroup hdash hk hlt (hindex.trans hi') (hpos.trans hp')
  | past hi' => exact .past (hindex.trans hi')

theorem getoptsArgv_changes (v : Variables) (updates : List (Text × Option Text))
    (operands : List Text) : getoptsArgv (v.changes updates) operands = getoptsArgv v operands := by
  unfold getoptsArgv Variables.positionalShellStrings
  rw [Variables.positional_changes]

/-- **A call where an option is next** answers it and goes on behind it. -/
theorem getopts_option (n : Nat) (command : Text)
    (hready : Ready m.shell.vars name) (hsize : Sized argv)
    (hargv : getoptsArgv m.shell.vars operands = argv) {place after : Options.Place Text}
    (hstands : Stands argv m.shell.vars place) {found : Options.Found Text}
    (hnext : Options.next ['-'] (optionKind optstring) place = some (found, after))
    (hclean : Clean optstring m.shell.vars found) :
    ∃ m', builtinGetopts out (n + 1) (command :: optstring :: name :: operands) m =
        some (.ok .SUCCESS, m') ∧
      Ready m'.shell.vars name ∧ getoptsArgv m'.shell.vars operands = argv ∧
      Stands argv m'.shell.vars after ∧
      observed m'.shell.vars name = answer (isSilent optstring) found := by
  obtain ⟨i, k, arg, letters, letter, rest, harg, hgroup, hdash, hindex, hpos, hk, hletter, heq⟩ :=
    hstands.letter hnext
  obtain ⟨rfl, rfl⟩ := Prod.mk.inj heq
  obtain ⟨hafter, hanswer⟩ := letter_answers hready hsize harg hgroup hdash hindex hletter hclean
  obtain ⟨w, hrun⟩ := getoptsLetter_run out optstring name argv (shellChars arg) (i + 1) (k + 1) m
  refine ⟨_, (builtinGetopts_letter out n command optstring hargv harg hgroup hdash hindex hpos
    hk).trans hrun, hready.changes _, ?_, hafter, hanswer⟩
  exact (getoptsArgv_changes _ _ operands).trans hargv

/-- **A call where the options have ended** fails, with the index where it was. -/
theorem getopts_end (n : Nat) (command : Text) (hready : Ready m.shell.vars name)
    (hargv : getoptsArgv m.shell.vars operands = argv)
    (hstands : Stands argv m.shell.vars place)
    (hnext : Options.next ['-'] (optionKind optstring) place = none) :
    ∃ m', builtinGetopts out (n + 1) (command :: optstring :: name :: operands) m =
        some (.ok .FAILURE, m') ∧
      m'.shell.vars.getBytes name = some (strToBytes ['?']) ∧
      m'.shell.vars.optind + place.rest.length = argv.length + 1 := by
  obtain ⟨i, hindex, hi, rfl, hend⟩ := hstands.ended hnext
  refine ⟨_, builtinGetopts_end out n command optstring hargv hend hindex, ?_, ?_⟩
  · change (m.shell.vars.change (name, some ['?'])).getBytes name = _
    rw [Variables.getBytes_change (hready.writable name mem_cons_self), if_pos rfl]
    rfl
  · have hkeep := optind_changes hready [(name, some ['?'])] (by simp)
    change (m.shell.vars.changes [(name, some ['?'])]).optind + _ = _
    rw [hkeep, hindex, length_map, length_drop]
    omega

/-- **What a loop keeps**: the variables stand where the calls have come to. -/
theorem Loop.stands {out : Outside W}
    (hsize : Sized argv) (h : Loop out command optstring name operands argv m seen) :
    Ready m.shell.vars name ∧ getoptsArgv m.shell.vars operands = argv ∧
      ∃ place founds, Stands argv m.shell.vars place ∧
        Options.Reached ['-'] (optionKind optstring) ⟨[], argv.map shellChars⟩ founds place ∧
        seen = founds.map (answer (isSilent optstring)) := by
  induction h with
  | start hready hargv hindex hfresh =>
    exact ⟨hready, hargv, _, [], .between (Nat.zero_le _) hindex hfresh, .refl _, rfl⟩
  | @call m m' seen n h hclean hcall ih =>
    obtain ⟨hready, hargv, place, founds, hstands, hreached, rfl⟩ := ih
    cases hnext : Options.next ['-'] (optionKind optstring) place with
    | none =>
      obtain ⟨m'', hfail, -⟩ := getopts_end out n command hready hargv hstands hnext
      rw [hfail] at hcall
      obtain ⟨hstatus, -⟩ := Prod.mk.inj (Option.some.inj hcall)
      cases hstatus
    | some step =>
      obtain ⟨found, after⟩ := step
      have hoptions : (optionsOf optstring argv)[founds.length]? = some found := by
        unfold optionsOf ofArgs
        rw [hreached, sequence_next hnext,
          getElem?_append_right (Nat.le_refl _), Nat.sub_self]
        rfl
      rw [length_map] at hclean
      obtain ⟨m'', hrun, hready', hargv', hafter, hanswer⟩ :=
        getopts_option out n command hready hsize hargv hstands hnext (hclean found hoptions)
      rw [hrun] at hcall
      obtain ⟨-, rfl⟩ := Prod.mk.inj (Option.some.inj hcall)
      refine ⟨hready', hargv', after, founds ++ [found], hafter, hreached.next hnext, ?_⟩
      rw [map_append, map_singleton, hanswer]
  | @body m m' seen h hready hargv hindex hpos ih =>
    obtain ⟨-, -, place, founds, hstands, hreached, hseen⟩ := ih
    exact ⟨hready, hargv, place, founds, hstands.congr (Variables.optind_of_getBytes hindex)
      (Variables.optpos_of_getBytes hpos), hreached, hseen⟩

/-- The options do not end at `--`. -/
def EndsPlainly (optstring : Text) (argv : List Text) : Prop :=
  (sequence ['-'] (optionKind optstring) ⟨[], argv.map shellChars⟩).2.rest.head? ≠
    some [['-'], ['-']]

/-- The index in front of what is left is the first operand's, but behind a `--`. -/
theorem firstOperand_eq
    (h : index + (sequence ['-'] (optionKind optstring)
      ⟨[], argv.map shellChars⟩).2.rest.length = argv.length + 1) :
    index = firstOperand optstring argv ↔ EndsPlainly optstring argv := by
  unfold firstOperand EndsPlainly operands
  cases hrest : (sequence ['-'] (optionKind optstring)
      ⟨[], argv.map shellChars⟩).2.rest with
  | nil =>
    rw [hrest, length_nil] at h
    simp [← h]
  | cons arg rest =>
    rw [hrest, length_cons] at h
    dsimp only [head?_cons]
    by_cases hdash : arg = [['-'], ['-']]
    · rw [if_pos hdash, hdash]
      simp only [ne_eq, not_true_eq_false, iff_false]
      omega
    · rw [if_neg hdash, length_cons]
      simp only [ne_eq, Option.some.injEq, hdash, not_false_eq_true, iff_true]
      omega

/-- **`getopts` in a loop.** In every state a loop reaches by steps that meet their conditions,
the calls since `OPTIND` was 1 have answered the first options of the arguments, one each; a
further call answers the next one if it finds it clean; and when all are answered the call
fails with `?`, with the index of the first operand unless the options ended at `--`. -/
theorem getopts_loop (out : Outside W) (command optstring name : Text) (operands argv : List Text)
    (hsize : Sized argv) {m : Machine W} {seen : List Answer}
    (h : Loop out command optstring name operands argv m seen) :
    seen <+: (optionsOf optstring argv).map (answer (isSilent optstring)) ∧
      (∀ found, (optionsOf optstring argv)[seen.length]? = some found →
        Clean optstring m.shell.vars found → ∀ n, ∃ m',
          builtinGetopts out (n + 1) (command :: optstring :: name :: operands) m =
            some (.ok .SUCCESS, m') ∧
          observed m'.shell.vars name = answer (isSilent optstring) found) ∧
      (seen.length = (optionsOf optstring argv).length → ∀ n, ∃ m',
        builtinGetopts out (n + 1) (command :: optstring :: name :: operands) m =
          some (.ok .FAILURE, m') ∧
        m'.shell.vars.getBytes name = some (strToBytes ['?']) ∧
        (m'.shell.vars.optind = firstOperand optstring argv ↔ EndsPlainly optstring argv)) := by
  obtain ⟨hready, hargv, place, founds, hstands, hreached, rfl⟩ := h.stands hsize
  have hoptions : optionsOf optstring argv =
      founds ++ (sequence ['-'] (optionKind optstring) place).1 := by
    unfold optionsOf ofArgs
    rw [hreached]
  rw [length_map]
  refine ⟨?_, ?_, ?_⟩
  · rw [hoptions, map_append]
    exact prefix_append _ _
  · intro found hfound hclean n
    cases hnext : Options.next ['-'] (optionKind optstring) place with
    | none =>
      rw [hoptions, sequence_end hnext, append_nil,
        getElem?_eq_none (Nat.le_refl _)] at hfound
      cases hfound
    | some step =>
      obtain ⟨found', after⟩ := step
      rw [hoptions, sequence_next hnext, getElem?_append_right (Nat.le_refl _),
        Nat.sub_self] at hfound
      obtain rfl : found' = found := Option.some.inj hfound
      obtain ⟨m', hrun, -, -, -, hanswer⟩ :=
        getopts_option out n command hready hsize hargv hstands hnext hclean
      exact ⟨m', hrun, hanswer⟩
  · intro hall n
    have hnext : Options.next ['-'] (optionKind optstring) place = none := by
      cases hnext : Options.next ['-'] (optionKind optstring) place with
      | none => rfl
      | some step =>
        rw [hoptions, sequence_next hnext, length_append, length_cons] at hall
        omega
    obtain ⟨m', hrun, hname, hindex⟩ := getopts_end out n command hready hargv hstands hnext
    refine ⟨m', hrun, hname, firstOperand_eq ?_⟩
    rw [hreached, sequence_end hnext]
    exact hindex

/-- The loop `while getopts ab: o -ax -b y`, before its first call. -/
theorem getopts_loop_fresh :
    ∃ m', builtinGetopts Outside.idle 1
        ["getopts".toList, "ab:".toList, ['o'], "-ax".toList, "-b".toList, ['y']] Machine.idle =
        some (.ok .SUCCESS, m') ∧
      observed m'.shell.vars ['o'] = answer (isSilent "ab:".toList) (.flag ['a']) := by
  refine (getopts_loop Outside.idle "getopts".toList "ab:".toList ['o']
    ["-ax".toList, "-b".toList, ['y']] ["-ax".toList, "-b".toList, ['y']]
    (by unfold Sized; decide)
    (.start ⟨by decide, by decide⟩ rfl (by decide)
      (by decide))).2.1 (.flag ['a']) ?_ trivial 0
  have hnext : Options.next ['-'] (optionKind "ab:".toList)
      ⟨[], ["-ax".toList, "-b".toList, ['y']].map shellChars⟩ =
      some (.flag ['a'], ⟨[['x']], ["-b".toList, ['y']].map shellChars⟩) := by decide
  unfold optionsOf ofArgs
  rw [sequence_next hnext]
  rfl

/-- `getopts ab o -ab`, `OPTIND=1`, and `getopts` again. -/
def restartInGroup : ShellM Unit Unit := do
  let args := ["getopts".toList, "ab".toList, ['o'], "-ab".toList]
  let _ ← builtinGetopts Outside.idle 1 args
  let _ ← setShell "OPTIND".toList ['1']
  let _ ← builtinGetopts Outside.idle 1 args

/-- The options of `--` end behind it, at index 2, but `OPTIND` stays 1; and started again in
the group `-ab` the sequence goes on with `b`. -/
theorem getopts_forgets_its_place :
    (∃ m', builtinGetopts Outside.idle 1 ["getopts".toList, ['a'], ['o'], "--".toList] Machine.idle =
        some (.ok .FAILURE, m') ∧ m'.shell.vars.optind = 1) ∧
      firstOperand ['a'] ["--".toList] = 2 ∧
      (∃ m', restartInGroup Machine.idle = some (.ok (), m') ∧ m'.shell.vars.optind = 2 ∧
        observed m'.shell.vars ['o'] = (some (strToBytes ['b']), none)) ∧
      (optionsOf "ab".toList ["-ab".toList]).head? = some (.flag ['a']) := by
  refine ⟨⟨_, rfl, by decide⟩, ?_, ⟨_, rfl, by decide, by decide⟩, ?_⟩
  · have hnext : Options.next ['-'] (optionKind ['a']) ⟨[], ["--".toList].map shellChars⟩ = none := by
      decide
    unfold firstOperand
    rw [sequence_end hnext]
    decide
  · have hnext : Options.next ['-'] (optionKind "ab".toList) ⟨[], ["-ab".toList].map shellChars⟩ =
        some (.flag ['a'], ⟨[['b']], []⟩) := by decide
    unfold optionsOf ofArgs
    rw [sequence_next hnext]
    rfl

end Ish.Epsh
