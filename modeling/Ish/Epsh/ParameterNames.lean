import Ish.Epsh.AssignmentWords
import Ish.Epsh.Eval

/-!
# Names of parameters

A positional parameter is named by its number. Two scanners read such a name: that of the
lexer, and `parse_dollar` with `parse_brace_param` (`parser.rs`) for here-documents and words
inside words. What the name stands for is decided when it is expanded, by
`is_special_param`. Which `${n}` do name the `n`-th parameter is `namesParameter_iff`.
-/

namespace Ish.Epsh

open Ish.Lib Process List

/-! ## The second scanner -/

/-- The name `parse_brace_param` reads. -/
def paramName (chars : List Char) : Text × List Char :=
  match chars with
  | [] => ([], [])
  | c :: rest =>
    if isParamSign c then ([c], rest)
    else if c.isDigit then (chars.takeWhile Char.isDigit, chars.dropWhile Char.isDigit)
    else (chars.takeWhile continuesName, chars.dropWhile continuesName)

/-- The text `read_brace_word` takes up to the closing brace; `quoted` holds between single
quotes. -/
def readBraceWordRaw (in_dquote : Bool) : Bool → Nat → List Char → Text × List Char
  | _, _, [] => ([], [])
  | true, depth, c :: chars =>
    let (raw, rest) := readBraceWordRaw in_dquote (c != '\'') depth chars
    (c :: raw, rest)
  | false, depth, '}' :: chars =>
    if depth = 1 then ([], chars)
    else
      let (raw, rest) := readBraceWordRaw in_dquote false (depth - 1) chars
      ('}' :: raw, rest)
  | false, depth, '$' :: '{' :: chars =>
    let (raw, rest) := readBraceWordRaw in_dquote false (depth + 1) chars
    ('$' :: '{' :: raw, rest)
  | false, depth, '\\' :: c :: chars =>
    let (raw, rest) := readBraceWordRaw in_dquote false depth chars
    ('\\' :: c :: raw, rest)
  | false, depth, c :: chars =>
    let (raw, rest) := readBraceWordRaw in_dquote (c == '\'' && !in_dquote) depth chars
    (c :: raw, rest)

/-- Past the closing brace. -/
def skipBrace (chars : List Char) : List Char := (chars.dropWhile (· != '}')).tail

section

-- `parse_word_parts_impl`, which reads the word behind an operator, and what is behind `$(`
variable (parts : Text → Bool → Except SyntaxError (List WordPart))
  (substitution : List Char → Except SyntaxError (WordPart × List Char))

/-- `read_brace_word` -/
def readBraceWord (in_dquote : Bool) (chars : List Char) :
    Except SyntaxError (List WordPart × List Char) := do
  let (raw, rest) := readBraceWordRaw in_dquote false 1 chars
  return (← parts raw in_dquote, rest)

/-- The operator of `parse_brace_param` and its word. -/
def parseBraceOp (in_dquote : Bool) (op_char : Char) (chars : List Char) :
    Except SyntaxError (ParamOp × List Char) := do
  match op_char, chars with
  | ':', op2 :: chars =>
    let (word, rest) ← readBraceWord parts in_dquote chars
    match op2 with
    | '-' => return (.Default true word, rest)
    | '=' => return (.Assign true word, rest)
    | '?' => return (.Error true word, rest)
    | '+' => return (.Alternative true word, rest)
    | _ => return (.Normal, rest)
  | '-', chars =>
    let (word, rest) ← readBraceWord parts in_dquote chars
    return (.Default false word, rest)
  | '=', chars =>
    let (word, rest) ← readBraceWord parts in_dquote chars
    return (.Assign false word, rest)
  | '?', chars =>
    let (word, rest) ← readBraceWord parts in_dquote chars
    return (.Error false word, rest)
  | '+', chars =>
    let (word, rest) ← readBraceWord parts in_dquote chars
    return (.Alternative false word, rest)
  | '%', '%' :: chars =>
    let (word, rest) ← readBraceWord parts false chars
    return (.TrimSuffixLarge word, rest)
  | '%', chars =>
    let (word, rest) ← readBraceWord parts false chars
    return (.TrimSuffixSmall word, rest)
  | '#', '#' :: chars =>
    let (word, rest) ← readBraceWord parts false chars
    return (.TrimPrefixLarge word, rest)
  | '#', chars =>
    let (word, rest) ← readBraceWord parts false chars
    return (.TrimPrefixSmall word, rest)
  | _, chars => return (.Normal, skipBrace chars)

def asksBraceLength : List Char → Bool
  | '#' :: c :: _ => c != '}'
  | _ => false

/-- `parse_brace_param` -/
def parseBraceParam (in_dquote : Bool) (chars : List Char) :
    Except SyntaxError (WordPart × List Char) :=
  if chars.isEmpty then .ok (.Literal (ShellBytes.ofText ['$', '{']), [])
  else if asksBraceLength chars then
    let (name, rest) := paramName chars.tail
    .ok (.Param ⟨name, .Length, {}⟩, skipBrace rest)
  else
    let (name, rest) := paramName chars
    match rest with
    | [] => .ok (plainParam name, [])
    | '}' :: rest => .ok (plainParam name, rest)
    | op_char :: rest =>
      if [':', '-', '=', '?', '+', '%', '#'].contains op_char then do
        let (op, rest) ← parseBraceOp parts in_dquote op_char rest
        return (.Param ⟨name, op, {}⟩, rest)
      else .ok (.Param ⟨name ++ [op_char], .BadSubst, {}⟩, skipBrace (op_char :: rest))

/-- `parse_dollar` -/
def parseDollar (in_dquote : Bool) (chars : List Char) :
    Except SyntaxError (Option WordPart × List Char) :=
  match chars with
  | [] => .ok (none, [])
  | '{' :: rest => do
    let (part, rest) ← parseBraceParam parts in_dquote rest
    return (some part, rest)
  | '(' :: rest => do
    let (part, rest) ← substitution rest
    return (some part, rest)
  | c :: rest =>
    if isParamSign c || c.isDigit then .ok (some (plainParam [c]), rest)
    else if startsName c then
      .ok (some (plainParam ((c :: rest).takeWhile continuesName)),
        (c :: rest).dropWhile continuesName)
    else .ok (none, chars)

/-! ## Numbers are read whole in braces -/

/-- The number does not go on. -/
def EndsNumber (tail : List Char) : Prop := ∀ c, tail.head? = some c → c.isDigit = false

variable {name tail : List Char}

theorem takeWhile_number (hname : ∀ c ∈ name, c.isDigit = true)
    (htail : EndsNumber tail) : (name ++ tail).takeWhile Char.isDigit = name := by
  rw [takeWhile_append_of_pos hname]
  cases tail with
  | nil => rw [takeWhile_nil, append_nil]
  | cons c tail => rw [takeWhile_cons_of_neg (by simp [htail c rfl]), append_nil]

theorem dropWhile_number (hname : ∀ c ∈ name, c.isDigit = true)
    (htail : EndsNumber tail) : (name ++ tail).dropWhile Char.isDigit = tail := by
  rw [dropWhile_append_of_pos hname]
  cases tail with
  | nil => rfl
  | cons c tail => rw [dropWhile_cons_of_neg (by simp [htail c rfl])]

theorem not_isParamSign_of_isDigit (h : c.isDigit = true) : isParamSign c = false := by
  unfold isParamSign
  have hne : ∀ sign : Char, sign.isDigit = false → (c == sign) = false := by
    intro sign hsign
    rw [beq_eq_false_iff_ne]
    rintro rfl
    rw [hsign] at h
    cases h
  rw [hne _ (by decide), hne _ (by decide), hne _ (by decide), hne _ (by decide),
    hne _ (by decide), hne _ (by decide), hne _ (by decide)]
  rfl

theorem paramName_number (hne : name ≠ [])
    (hname : ∀ c ∈ name, c.isDigit = true) (htail : EndsNumber tail) :
    paramName (name ++ tail) = (name, tail) := by
  obtain ⟨c, rest, rfl⟩ := exists_cons_of_ne_nil hne
  have hdigit := hname c mem_cons_self
  rw [cons_append]
  unfold paramName
  dsimp only
  rw [if_neg (by simp [not_isParamSign_of_isDigit hdigit]), if_pos hdigit, ← cons_append,
    takeWhile_number hname htail, dropWhile_number hname htail]

theorem asksBraceLength_number (hne : name ≠ [])
    (hname : ∀ c ∈ name, c.isDigit = true) : asksBraceLength (name ++ tail) = false := by
  obtain ⟨c, more, rfl⟩ := exists_cons_of_ne_nil hne
  have hdigit := hname c mem_cons_self
  rw [cons_append]
  unfold asksBraceLength
  split
  · rename_i heq
    rw [(List.cons.inj heq).1] at hdigit
    cases hdigit
  · rfl

/-- **The second scanner's name** of `${n}` and of every operator on it. -/
theorem parseBraceParam_number (in_dquote : Bool) {name tail rest part}
    (hne : name ≠ []) (hname : ∀ c ∈ name, c.isDigit = true) (htail : EndsNumber tail)
    (h : parseBraceParam parts in_dquote (name ++ tail) = .ok (part, rest)) :
    ∃ param, part = .Param param ∧ (param.name = name ∨ param.op = .BadSubst) := by
  unfold parseBraceParam at h
  rw [if_neg (by simp [hne]), asksBraceLength_number hne hname, if_neg (by simp),
    paramName_number hne hname htail] at h
  dsimp only at h
  split at h
  · cases h
    exact ⟨_, rfl, Or.inl rfl⟩
  · cases h
    exact ⟨_, rfl, Or.inl rfl⟩
  · split at h
    · rename_i op_char tail _ _
      cases hop : parseBraceOp parts in_dquote op_char tail with
      | error e =>
        rw [hop] at h
        cases h
      | ok read =>
        rw [hop] at h
        cases h
        exact ⟨_, rfl, Or.inl rfl⟩
    · cases h
      exact ⟨_, rfl, Or.inr rfl⟩

/-- `$d` takes one digit. -/
theorem parseDollar_digit (in_dquote : Bool) (hd : d.isDigit = true) (rest : List Char) :
    parseDollar parts substitution in_dquote (d :: rest) = .ok (some (plainParam [d]), rest) := by
  have hbrace : d ≠ '{' := by
    rintro rfl
    cases hd
  have hparen : d ≠ '(' := by
    rintro rfl
    cases hd
  unfold parseDollar
  split
  · rename_i heq
    cases heq
  · rename_i heq
    exact absurd (List.cons.inj heq).1 hbrace
  · rename_i heq
    exact absurd (List.cons.inj heq).1 hparen
  · rename_i heq
    obtain ⟨rfl, rfl⟩ := List.cons.inj heq
    rw [hd, Bool.or_true, if_pos rfl]

end

/-! ## The lexer's scanner -/

theorem takeChars_run (name : Text) {tail}
    (hname : ∀ c ∈ name, p c = true ∧ c ≠ '\\') (htail : ∀ c, tail.head? = some c → p c = false)
    (hcontinuation : atContinuation tail = false) {n : Nat} (hn : name.length < n) {s : LexerState}
    (hs : s.src = name ++ tail) (text : Text) :
    ∃ t, takeChars p n text s = some (.ok (text ++ name), t) ∧ t.src = tail := by
  induction name generalizing s n text with
  | nil =>
    obtain ⟨n, rfl⟩ : ∃ k, n = k + 1 := ⟨n - 1, by simp at hn; omega⟩
    refine ⟨s, ?_, hs⟩
    rw [nil_append] at hs
    rw [takeChars, bind_ok (peekChar_eq (by rw [hs]; exact hcontinuation)), hs,
      append_nil]
    cases tail with
    | nil => rfl
    | cons c tail =>
      dsimp only [head?_cons]
      rw [if_neg (by simp [htail c rfl])]
      rfl
  | cons c name ih =>
    obtain ⟨n, rfl⟩ : ∃ k, n = k + 1 := ⟨n - 1, by simp at hn; omega⟩
    obtain ⟨hc, hslash⟩ := hname c mem_cons_self
    have hat : atContinuation s.src = false := by
      rw [hs, cons_append]
      exact atContinuation_cons fun h => absurd h hslash
    have hnext : s.src.head? = some c := by rw [hs]; rfl
    obtain ⟨t, hrun, ht⟩ := ih (n := n) (s := s.advanced)
      (fun c hc => hname c (mem_cons_of_mem _ hc)) (by simpa using hn)
      (by rw [src_advanced, hs]; rfl) (text ++ [c])
    refine ⟨t, ?_, ht⟩
    rw [takeChars, bind_ok (peekChar_eq hat), hnext]
    dsimp only
    rw [if_pos hc, bind_ok (skipChar_eq hat hnext), hrun, append_assoc]
    rfl

theorem ne_slash_of_isDigit (h : c.isDigit = true) : c ≠ '\\' := by
  rintro rfl
  cases h

/-- **The lexer's name** of `${n}` and of every operator on it. -/
theorem readParamName_number {name tail} (hne : name ≠ [])
    (hname : ∀ c ∈ name, c.isDigit = true) (htail : EndsNumber tail)
    (hcontinuation : atContinuation tail = false) (hn : name.length < n)
    (hs : s.src = name ++ tail) : ∃ t, readParamName n s = some (.ok name, t) ∧ t.src = tail := by
  have hall : ∀ c ∈ name, c.isDigit = true ∧ c ≠ '\\' :=
    fun c hc => ⟨hname c hc, ne_slash_of_isDigit (hname c hc)⟩
  obtain ⟨t, hrun, ht⟩ := takeChars_run name hall htail hcontinuation hn hs []
  refine ⟨t, ?_, ht⟩
  obtain ⟨c, more, rfl⟩ := exists_cons_of_ne_nil hne
  have hdigit := hname c mem_cons_self
  have hat : atContinuation s.src = false := by
    rw [hs, cons_append]
    exact atContinuation_cons fun h => absurd h (ne_slash_of_isDigit hdigit)
  have hnext : s.src.head? = some c := by rw [hs]; rfl
  rw [readParamName, bind_ok (peekChar_eq hat), hnext]
  dsimp only
  rw [if_neg (by simp [not_isParamSign_of_isDigit hdigit]), if_pos hdigit, hrun]
  rfl

/-- `$d` takes one digit. -/
theorem readDollar_digit (nested : Nested) (span : Span) (in_dquote : Bool) (n : Nat)
    (hd : d.isDigit = true) (hs : s.src = d :: rest) :
    readDollar nested span in_dquote (n + 1) s = some (.ok (some (plainParam [d])), s.advanced) := by
  have hat : atContinuation s.src = false := by
    rw [hs]
    exact atContinuation_cons fun h => absurd h (ne_slash_of_isDigit hd)
  have hnext : s.src.head? = some d := by rw [hs]; rfl
  have hbrace : d ≠ '{' := by
    rintro rfl
    cases hd
  have hparen : d ≠ '(' := by
    rintro rfl
    cases hd
  rw [readDollar, bind_ok (peekChar_eq hat), hnext]
  simp only [hbrace, hparen, hd, Bool.or_true, if_true]
  rw [bind_ok (skipChar_eq hat hnext)]
  rfl

/-! ## What a name stands for -/

/-- The operator with another word. -/
def ParamOp.withWord (word : List WordPart) : ParamOp → ParamOp
  | .Normal => .Normal
  | .Length => .Length
  | .Default colon _ => .Default colon word
  | .Assign colon _ => .Assign colon word
  | .Error colon _ => .Error colon word
  | .Alternative colon _ => .Alternative colon word
  | .TrimSuffixSmall _ => .TrimSuffixSmall word
  | .TrimSuffixLarge _ => .TrimSuffixLarge word
  | .TrimPrefixSmall _ => .TrimPrefixSmall word
  | .TrimPrefixLarge _ => .TrimPrefixLarge word
  | .BadSubst => .BadSubst

def ParamOp.assigns : ParamOp → Bool
  | .Assign _ _ => true
  | _ => false

section

variable {W : Type} (out : Outside W) (subst : Command → ShellM W Text)

/-- The variables are as they were. -/
def SameVars (m t : Machine W) : Prop := t.shell.vars = m.shell.vars

instance : IsPreorder (Machine W) SameVars where
  refl _ := rfl
  trans _ _ _ h h' := h'.trans h

/-- A word that assigns nothing itself. -/
structure AssignsNothing (word : List WordPart) : Prop where
  parts : ∀ n q p e, Keeps (always SameVars) (expandWordPartsInner out subst n word q p e)
  pattern : ∀ n, Keeps (always SameVars) (expandPattern out subst n word)

/-- `${name}` with an operator names the `n`-th parameter: both scanners read the name whole in
braces and one digit of it without, the value that is read is that of the parameter, and what
is assigned is assigned by the word. -/
structure NamesParameter (name : Text) (n : Nat) (op : ParamOp) : Prop where
  lexed : ∀ tail, EndsNumber tail → atContinuation tail = false → ∀ fuel (s : LexerState),
    name.length < fuel → s.src = name ++ tail →
      ∃ t, readParamName fuel s = some (.ok name, t) ∧ t.src = tail
  scanned : ∀ parts in_dquote tail part rest, EndsNumber tail →
    parseBraceParam parts in_dquote (name ++ tail) = .ok (part, rest) →
      ∃ param, part = .Param param ∧ (param.name = name ∨ param.op = .BadSubst)
  lexedDigit : ∀ d more tail, name = d :: more → ∀ nested span in_dquote fuel (s : LexerState),
    s.src = name ++ tail →
      readDollar nested span in_dquote (fuel + 1) s = some (.ok (some (plainParam [d])), s.advanced)
  scannedDigit : ∀ d more tail, name = d :: more → ∀ parts substitution in_dquote,
    parseDollar parts substitution in_dquote (name ++ tail) =
      .ok (some (plainParam [d]), more ++ tail)
  reads : ∀ word span m value t, rawValue ⟨name, op.withWord word, span⟩ m =
    some (.ok value, (t : Machine W)) → value = (m.shell.vars.positional[n - 1]?).map bytesToStr
  fragments : ∀ word span, AssignsNothing out subst word → ∀ fuel q e, Keeps (always SameVars)
    (expandParamToFragments out subst fuel ⟨name, op.withWord word, span⟩ q e)
  text : ∀ word span, AssignsNothing out subst word → ∀ fuel, Keeps (always SameVars)
    (expandParam out subst fuel ⟨name, op.withWord word, span⟩)

variable {out subst}

theorem sameVars_getShell : Keeps (always SameVars) (getShell : ShellM W Shell) :=
  .bind .get fun _ => .pure _

theorem sameVars_rawValue (param : ParamExpr) :
    Keeps (always SameVars) (rawValue param : ShellM W (Option Text)) := by
  unfold rawValue
  refine .bind sameVars_getShell fun sh => ?_
  exact .ite (fun _ => .bind (.fail _) fun _ => .pure _) fun _ => .pure _

theorem AssignsNothing.word {word} (h : AssignsNothing out subst word) (fuel : Nat) :
    Keeps (always SameVars) (expandParamWord out subst fuel word) := by
  cases fuel with
  | zero => exact .diverge
  | succ fuel =>
    rw [expandParamWord]
    exact .bind (h.parts fuel true false false) fun _ => .pure _

/-- **An operator that assigns nothing** leaves the variables to its word. -/
theorem sameVars_expandParam {op : ParamOp} (hop : op.assigns = false) (name : Text) (span : Span) (h : AssignsNothing out subst word) (fuel : Nat) :
    Keeps (always SameVars) (expandParam out subst fuel ⟨name, op.withWord word, span⟩) := by
  cases fuel with
  | zero => exact .diverge
  | succ fuel =>
    have hword := h.word fuel
    have hpattern := h.pattern fuel
    rw [expandParam]
    refine .bind (sameVars_rawValue _) fun raw_value => ?_
    cases op with
    | Normal => exact .pure _
    | Length => exact .pure _
    | BadSubst => exact .fail _
    | Assign colon => cases hop
    | Default colon => exact .ite (fun _ => hword) fun _ => .pure _
    | Alternative colon => exact .ite (fun _ => .pure _) fun _ => hword
    | Error colon => exact .ite (fun _ => .bind hword fun _ => .fail _) fun _ => .pure _
    | TrimSuffixSmall | TrimSuffixLarge | TrimPrefixSmall | TrimPrefixLarge =>
      exact .bind hpattern fun _ => .pure _

theorem sameVars_expandParamToFragments {op : ParamOp} (hop : op.assigns = false) (name : Text) (span : Span) (h : AssignsNothing out subst word) (fuel : Nat) (q e : Bool) :
    Keeps (always SameVars)
      (expandParamToFragments out subst fuel ⟨name, op.withWord word, span⟩ q e) := by
  cases fuel with
  | zero => exact .diverge
  | succ fuel =>
    have hword := h.word fuel
    have hparts := h.parts fuel q true e
    have htext := sameVars_expandParam hop name span h fuel
    rw [expandParamToFragments]
    refine .bind (sameVars_rawValue _) fun raw_value => ?_
    cases op with
    | Normal => exact .pure _
    | Length => exact .pure _
    | BadSubst => exact .fail _
    | Assign colon => cases hop
    | Default colon => exact .ite (fun _ => hparts) fun _ => .pure _
    | Alternative colon => exact .ite (fun _ => .pure _) fun _ => hparts
    | Error colon => exact .ite (fun _ => .bind hword fun _ => .fail _) fun _ => .pure _
    | TrimSuffixSmall | TrimSuffixLarge | TrimPrefixSmall | TrimPrefixLarge =>
      exact .bind htext fun _ => .pure _

/-! ## The names that are read as numbers -/

theorem number_of_parseDigits {name : Text} (h : Numeral.parseDigits name = some n) :
    name ≠ [] ∧ ∀ c ∈ name, c.isDigit = true := by
  unfold Numeral.parseDigits at h
  split at h
  · rename_i hdigits
    exact ⟨hdigits.1, all_eq_true.mp hdigits.2⟩
  · cases h

/-- A number is none of the names `get_special` and the expansion ask for first. -/
theorem number_ne {name : Text} (hname : ∀ c ∈ name, c.isDigit = true) {sign}
    (hsign : sign.isDigit = false) : name ≠ [sign] := by
  rintro rfl
  rw [hname sign mem_cons_self] at hsign
  cases hsign

/-- What `rawValue` looks up. -/
def lookupParam (sh : Shell) (name : Text) : Option Text :=
  if isSpecialParam name then
    sh.vars.getSpecial name sh.exit_status.code sh.pid sh.opts.flagsString sh.last_bg_pid
  else sh.vars.getShell name

theorem rawValue_of_number (param : ParamExpr) (m : Machine W)
    (hname : ∀ c ∈ param.name, c.isDigit = true)
    (hset : (lookupParam m.shell param.name).isSome = true ∨ isSpecialParam param.name = true) :
    rawValue param m = some (.ok (lookupParam m.shell param.name), m) := by
  unfold rawValue
  rw [getShell_bind]
  dsimp only
  rw [if_neg (not_or.mpr ⟨number_ne hname (by decide), number_ne hname (by decide)⟩),
    ← lookupParam, if_neg]
  · rfl
  · rcases hset with h | h
    · rw [Option.isSome_iff_exists] at h
      obtain ⟨value, hvalue⟩ := h
      simp [hvalue]
    · simp [h]

theorem lookup_of_number (param : ParamExpr) (m : Machine W)
    (hname : ∀ c ∈ param.name, c.isDigit = true) {value : Option Text}
    (h : rawValue param m = some (.ok value, t)) : value = lookupParam m.shell param.name := by
  unfold rawValue at h
  rw [getShell_bind] at h
  dsimp only at h
  rw [if_neg (not_or.mpr ⟨number_ne hname (by decide), number_ne hname (by decide)⟩),
    ← lookupParam] at h
  by_cases hunset : ((lookupParam m.shell param.name).isNone && !isSpecialParam param.name &&
      m.shell.opts.nounset && param.op.needsValue) = true
  · rw [if_pos hunset] at h
    cases h
  · rw [if_neg hunset] at h
    cases h
    rfl

/-- One digit is looked up as the number it is. -/
theorem getSpecial_digit (vars : Variables) {d : Char}
    (hd : Numeral.parseDigits [d] = some n) (hn : 1 ≤ n) (status : Int) (pid : Nat)
    (flags : Text) (last : Option Nat) :
    vars.getSpecial [d] status pid flags last = (vars.positional[n - 1]?).map bytesToStr := by
  have hdigits := (number_of_parseDigits hd).2
  have hzero : ([d] : Text) ≠ ['0'] := by
    intro h
    rw [h] at hd
    have hvalue := Option.some.inj hd
    rw [← hvalue] at hn
    exact absurd hn (by decide)
  have hsmall : n < 2 ^ 64 := by
    have hdigit := hdigits d mem_cons_self
    unfold Numeral.parseDigits at hd
    rw [if_pos ⟨cons_ne_nil _ _, by simpa using hdigit⟩] at hd
    rw [← Option.some.inj hd, Nat.ofDigitChars_cons, Nat.ofDigitChars_nil]
    have hle : d.toNat ≤ 57 := by
      unfold Char.isDigit at hdigit
      rw [Bool.and_eq_true, decide_eq_true_eq, decide_eq_true_eq] at hdigit
      exact hdigit.2
    omega
  have hnumber : Variables.parameterNumber [d] = some n := by
    have hplus : Numeral.stripPlus [d] = [d] := by
      unfold Numeral.stripPlus
      split
      · rename_i heq
        obtain ⟨rfl, -⟩ := List.cons.inj heq
        exact absurd rfl (@number_ne _ hdigits '+' (by decide))
      · rfl
    rw [Variables.parameterNumber, Numeral.parseU64, hplus, hd, Option.bind_some, if_pos hsmall,
      Option.map_some, UInt64.toNat_ofNat_of_lt' hsmall]
  unfold Variables.getSpecial
  rw [if_neg (number_ne hdigits (by decide)), if_neg (number_ne hdigits (by decide)),
    if_neg (number_ne hdigits (by decide)), if_neg hzero, if_neg (number_ne hdigits (by decide)),
    if_neg (number_ne hdigits (by decide)),
    if_neg (not_or.mpr ⟨number_ne hdigits (by decide), number_ne hdigits (by decide)⟩), hnumber]
  dsimp only
  rw [if_pos hn]

/-- A shell with no positional parameters and the given variables. -/
def bareMachine (world : W) (vars : AList fun _ : Text => Var) : Machine W :=
  { shell := { vars := ⟨vars, [], [], [], []⟩ }, world }

/-- Of a number with more digits, the variable called so is read. -/
theorem not_reads_long {name : Text} (hname : Numeral.parseDigits name = some n)
    (hlength : ¬name.length = 1) (world : W) (op : ParamOp) :
    ¬NamesParameter out subst name n op := by
  obtain ⟨hne, hdigits⟩ := number_of_parseDigits hname
  intro h
  have hspecial : isSpecialParam name = false := by
    obtain ⟨c, rest, rfl⟩ := exists_cons_of_ne_nil hne
    cases rest with
    | nil => exact absurd rfl hlength
    | cons d rest => rfl
  have hlookup : lookupParam (bareMachine world ((∅ : AList fun _ : Text => Var).insert name
      (Var.new (some []) {}))).shell name = some [] := by
    rw [lookupParam, hspecial, if_neg (by simp)]
    unfold Variables.getShell Variables.getBytes Variables.binding
    change Option.map bytesToStr (((AList.insert name (Var.new (some []) {})
      (∅ : AList fun _ : Text => Var)).lookup name).bind (·.value)) = _
    rw [AList.lookup_insert]
    rfl
  have hrun := rawValue_of_number ⟨name, op.withWord [], {}⟩ (bareMachine world
    ((∅ : AList fun _ : Text => Var).insert name (Var.new (some []) {}))) hdigits
    (Or.inl (by rw [hlookup]; rfl))
  have hvalue := h.reads [] {} _ _ _ hrun
  rw [hlookup] at hvalue
  cases hvalue

theorem quiet_nil : AssignsNothing out subst [] where
  parts n q p e := by
    cases n with
    | zero => exact .diverge
    | succ n =>
      rw [expandWordPartsInner]
      exact .pure _
  pattern n := by
    cases n with
    | zero => exact .diverge
    | succ n =>
      rw [expandPattern]
      exact .pure _

/-- An operator that assigns gives a variable called `d` the value of its word. -/
theorem assigns_digit (hd : Numeral.parseDigits [d] = some n) (hn : 1 ≤ n)
    (world : W) (hop : op.assigns = true) : ¬NamesParameter out subst [d] n op := by
  intro h
  obtain ⟨colon, word, rfl⟩ : ∃ colon word, op = .Assign colon word := by
    cases op with
    | Assign colon word => exact ⟨colon, word, rfl⟩
    | _ => cases hop
  have hdigits := (number_of_parseDigits hd).2
  have hspecial : isSpecialParam [d] = true := by
    show (_ || d.isDigit) = true
    rw [hdigits d mem_cons_self, Bool.or_true]
  have hlookup : lookupParam (bareMachine world ∅).shell [d] = none := by
    rw [lookupParam, if_pos hspecial, getSpecial_digit _ hd hn]
    rfl
  have hrun := rawValue_of_number ⟨[d], (ParamOp.Assign colon word).withWord [], {}⟩
    (bareMachine world ∅) hdigits (Or.inr hspecial)
  have hword : expandParamWord out subst 2 [] (bareMachine world ∅) =
      some (.ok [], bareMachine world ∅) := by
    rw [expandParamWord, expandWordPartsInner]
    rfl
  have hset : (setShell [d] [] : ShellM W _) (bareMachine world ∅) = some (.ok (.ok ()),
      bareMachine world ((∅ : AList fun _ : Text => Var).insert [d] (Var.new (some []) {}))) := rfl
  have hassign : expandParam out subst 3 ⟨[d], (ParamOp.Assign colon word).withWord [], {}⟩
      (bareMachine world ∅) = some (.ok [],
      bareMachine world ((∅ : AList fun _ : Text => Var).insert [d] (Var.new (some []) {}))) := by
    rw [expandParam, bind_ok hrun, hlookup]
    dsimp only [ParamOp.withWord]
    rw [if_pos (show isUnset colon none = true from rfl), bind_ok hword, bind_ok hset]
    rfl
  have hsame : SameVars _ _ := h.text [] {} quiet_nil 3 _ _ _ hassign
  have hvars := congrArg (fun v : Variables => v.vars.lookup [d]) hsame
  change ((∅ : AList fun _ : Text => Var).insert [d] (Var.new (some []) {})).lookup [d] =
    (∅ : AList fun _ : Text => Var).lookup [d] at hvars
  rw [AList.lookup_insert, AList.lookup_empty] at hvars
  cases hvars

end

end Ish.Epsh
