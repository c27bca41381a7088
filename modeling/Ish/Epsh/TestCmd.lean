import Ish.Epsh.Shell
import Ish.Lib.UnixPath

/-!
# `test`

The model of `crates/epsh/src/test_cmd.rs` and of `builtin_test`. A function of the source
that moves a position along the arguments returns those that are left; a position behind
the last argument is no argument. `test_prescribed` compares the result with the reading
of the arguments by their number, and for longer lists by the grammar.
-/

namespace Ish.Epsh.TestCmd

open Ish.Lib

/-! ## What is asked of the system -/

inductive FileType where
  | File
  | Dir
  | Symlink
  | Fifo
  | BlockDevice
  | CharDevice
  | Socket
deriving DecidableEq

structure Metadata where
  file_type : FileType
  mode : UInt32
  uid : UInt32
  len : UInt64
  modified : Int
  dev : UInt64
  ino : UInt64

/-- The files by their absolute paths, and the process. -/
structure System where
  metadata : UnixPath.Path → Option Metadata
  symlink_metadata : UnixPath.Path → Option Metadata
  uid : UInt32
  isatty : Int → Bool
  cwd : UnixPath.Path

variable (sys : System)

/-- `test_path` -/
def testPath (operand : Text) : UnixPath.Path :=
  if (strToBytes operand).head? = some UnixPath.SLASH then strToBytes operand
  else UnixPath.join sys.cwd (strToBytes operand)

/-! ## Primaries -/

/-- The comparisons of the source's first arms: of strings. -/
def stringOperators : List Text := ["=".toList, "==".toList, "!=".toList, "<".toList, ">".toList]

def integerOperators : List Text :=
  ["-eq".toList, "-ne".toList, "-lt".toList, "-le".toList, "-gt".toList, "-ge".toList]

def fileOperators : List Text := ["-nt".toList, "-ot".toList, "-ef".toList]

/-- What `test_primary` looks for behind an operand. -/
def isBinary (op : Text) : Bool :=
  stringOperators.contains op || integerOperators.contains op || fileOperators.contains op

def compareStrings (op left right : Text) : Bool :=
  if op = "!=".toList then left != right
  else if op = "<".toList then decide (left < right)
  else if op = ">".toList then decide (right < left)
  else left == right

def compareIntegers (op : Text) (left right : Int) : Bool :=
  if op = "-eq".toList then left == right
  else if op = "-ne".toList then left != right
  else if op = "-lt".toList then decide (left < right)
  else if op = "-le".toList then decide (left ≤ right)
  else if op = "-gt".toList then decide (right < left)
  else decide (right ≤ left)

def compareFiles (op : Text) (lm rm : Option Metadata) : Bool :=
  if op = "-nt".toList then
    match lm, rm with
    | some l, some r => decide (r.modified < l.modified)
    | some _, none => true
    | _, _ => false
  else if op = "-ot".toList then
    match lm, rm with
    | some l, some r => decide (l.modified < r.modified)
    | none, some _ => true
    | _, _ => false
  else
    match lm, rm with
    | some l, some r => l.dev == r.dev && l.ino == r.ino
    | _, _ => false

/-- `parse::<i64>().unwrap_or(0)` -/
def parseInteger (operand : Text) : Int := ((Numeral.parseI64 operand).map Int64.toInt).getD 0

def binaryPrimary (left op right : Text) : Bool :=
  if stringOperators.contains op then compareStrings op left right
  else if integerOperators.contains op then
    compareIntegers op (parseInteger left) (parseInteger right)
  else compareFiles op (sys.metadata (testPath sys left)) (sys.metadata (testPath sys right))

def stringTests : List Text := ["-n".toList, "-z".toList, "-t".toList]

def accessTests : List Text := ["-r".toList, "-w".toList, "-x".toList]

/-- The other tests of files. -/
def fileTests : List Text :=
  ["-e".toList, "-f".toList, "-d".toList, "-L".toList, "-h".toList, "-s".toList, "-p".toList,
    "-b".toList, "-c".toList, "-S".toList, "-u".toList, "-g".toList, "-k".toList]

def isUnary (op : Text) : Bool :=
  stringTests.contains op || accessTests.contains op || fileTests.contains op

/-- What the permission bits say, of the owner or of the others. -/
def permits (op : Text) (m : Metadata) : Bool :=
  let is_owner := m.uid == sys.uid
  let mask : UInt32 :=
    if op = "-r".toList then if is_owner then 0o400 else 0o004
    else if op = "-w".toList then if is_owner then 0o200 else 0o002
    else if is_owner then 0o100 else 0o001
  m.mode &&& mask != 0

def stringTest (op s : Text) : Bool :=
  if op = "-n".toList then !s.isEmpty
  else if op = "-z".toList then s.isEmpty
  else match parseI32 s with
    | some fd => sys.isatty fd
    | none => false

def fileTest (op : Text) (path : UnixPath.Path) : Bool :=
  let has (p : Metadata → Bool) := (sys.metadata path).any p
  if op = "-e".toList then (sys.metadata path).isSome
  else if op = "-f".toList then has (·.file_type == .File)
  else if op = "-d".toList then has (·.file_type == .Dir)
  else if op = "-L".toList ∨ op = "-h".toList then
    (sys.symlink_metadata path).any (·.file_type == .Symlink)
  else if op = "-s".toList then has (0 < ·.len)
  else if op = "-p".toList then has (·.file_type == .Fifo)
  else if op = "-b".toList then has (·.file_type == .BlockDevice)
  else if op = "-c".toList then has (·.file_type == .CharDevice)
  else if op = "-S".toList then has (·.file_type == .Socket)
  else if op = "-u".toList then has (·.mode &&& 0o4000 != 0)
  else if op = "-g".toList then has (·.mode &&& 0o2000 != 0)
  else has (·.mode &&& 0o1000 != 0)

def unaryPrimary (op s : Text) : Bool :=
  if stringTests.contains op then stringTest sys op s
  else if accessTests.contains op then
    (sys.metadata (testPath sys s)).any (permits sys op)
  else fileTest sys op (testPath sys s)

/-! ## The reader -/

/-- What is no operand of a unary operator. -/
def noOperands : List Text :=
  [")".toList, "-a".toList, "-o".toList, "=".toList, "!=".toList, "-eq".toList, "-ne".toList,
    "-lt".toList, "-le".toList, "-gt".toList, "-ge".toList]

/-- `test_primary` behind its look for a binary operator. -/
def testUnary (op : Text) : List Text → Bool × List Text
  | [] => (!op.isEmpty, [])
  | operand :: rest =>
    if isUnary op && !noOperands.contains operand then (unaryPrimary sys op operand, rest)
    else (!op.isEmpty, operand :: rest)

/-- `test_primary`; `inner` is `test_or`. -/
def testPrimary (inner : List Text → Bool × List Text) : List Text → Bool × List Text
  | [] => (false, [])
  | first :: rest =>
    if first = ['('] then
      let (result, after) := inner rest
      (result, if after.head? = some [')'] then after.tail else after)
    else match rest with
      | op :: more =>
        if isBinary op then (binaryPrimary sys first op (more.head?.getD []), more.tail)
        else testUnary sys first rest
      | [] => testUnary sys first rest

def testNot (inner : List Text → Bool × List Text) : List Text → Bool × List Text
  | [] => testPrimary sys inner []
  | word :: rest =>
    if word = ['!'] then
      let (result, after) := testPrimary sys inner rest
      (!result, after)
    else testPrimary sys inner (word :: rest)

/-- The loop of `test_or` and of `test_and`. -/
def testLoop (op : Text) (combine : Bool → Bool → Bool) (next : List Text → Bool × List Text) :
    Nat → Bool → List Text → Bool × List Text
  | n + 1, result, word :: rest =>
    if word = op then
      let (right, after) := next rest
      testLoop op combine next n (combine result right) after
    else (result, word :: rest)
  | _, result, rest => (result, rest)

/-- `test_and` -/
def testAnd (inner : List Text → Bool × List Text) (args : List Text) : Bool × List Text :=
  let (result, rest) := testNot sys inner args
  testLoop "-a".toList and (testNot sys inner) rest.length result rest

/-- `test_or`, for arguments with fewer parentheses than `n`. -/
def testOr : Nat → List Text → Bool × List Text
  | 0, args => (false, args)
  | n + 1, args =>
    let (result, rest) := testAnd sys (testOr n) args
    testLoop "-o".toList or (testAnd sys (testOr n)) rest.length result rest

def status (result : Bool) : ExitStatus := if result then .SUCCESS else .FAILURE

/-- `test_eval` -/
def testEval (args : List Text) : ExitStatus :=
  if args.isEmpty then .FAILURE
  else
    let (result, rest) := testOr sys (args.length + 1) args
    if rest.isEmpty then status result else .MISUSE

/-- `builtin_test` -/
def builtinTest (args : List Text) : ExitStatus :=
  if args.head? = some ['['] then
    if args.getLast? ≠ some [']'] then .MISUSE else testEval sys args.tail.dropLast
  else testEval sys args.tail

/-! ## The readings that are prescribed -/

/-- What the arguments stand for. -/
inductive Expr where
  | string (s : Text)
  | unary (op s : Text)
  | binary (left op right : Text)
  | group (e : Expr)
  | not (e : Expr)
  | and (left right : Expr)
  | or (left right : Expr)
deriving DecidableEq

namespace Expr

def tokens : Expr → List Text
  | string s => [s]
  | unary op s => [op, s]
  | binary left op right => [left, op, right]
  | group e => ['('] :: e.tokens ++ [[')']]
  | not e => ['!'] :: e.tokens
  | and left right => left.tokens ++ "-a".toList :: right.tokens
  | or left right => left.tokens ++ "-o".toList :: right.tokens

end Expr

/-- Two arguments. -/
def reading₂ (a b : Text) : Option Expr :=
  if a = ['!'] then some (.not (.string b))
  else if isUnary a then some (.unary a b)
  else none

/-- Three arguments: a binary primary first, `-a` and `-o` among them. -/
def reading₃ (a b c : Text) : Option Expr :=
  if isBinary b then some (.binary a b c)
  else if b = "-a".toList then some (.and (.string a) (.string c))
  else if b = "-o".toList then some (.or (.string a) (.string c))
  else if a = ['!'] then (reading₂ b c).map .not
  else if a = ['('] ∧ c = [')'] then some (.group (.string b))
  else none

/-- The reading by the number of arguments. -/
def reading : List Text → Option Expr
  | [a] => some (.string a)
  | [a, b] => reading₂ a b
  | [a, b, c] => reading₃ a b c
  | [a, b, c, d] =>
    if a = ['!'] then (reading₃ b c d).map .not
    else if a = ['('] ∧ d = [')'] then (reading₂ b c).map .group
    else none
  | _ => none

/-- The arguments are read as an expression: by their number, or else as its words. -/
def ReadAs (args : List Text) (e : Expr) : Prop :=
  reading args = some e ∨ reading args = none ∧ e.tokens = args

/-- The file an operand names; the empty path names none. -/
def lookup (operand : Text) : Option Metadata :=
  if operand = [] then none else sys.metadata (testPath sys operand)

variable (granted : Text → UnixPath.Path → Bool)

/-- The truth of a unary primary, where `granted` says which permissions the process has. -/
def unaryTruth (op s : Text) : Bool :=
  if stringTests.contains op then stringTest sys op s
  else if s = [] then false
  else if accessTests.contains op then
    (sys.metadata (testPath sys s)).isSome && granted op (testPath sys s)
  else fileTest sys op (testPath sys s)

/-- The truth of a binary primary, unless an operand is no integer. -/
def binaryTruth (left op right : Text) : Option Bool :=
  if stringOperators.contains op then some (compareStrings op left right)
  else if integerOperators.contains op then do
    return compareIntegers op (← Numeral.parseInt left) (← Numeral.parseInt right)
  else some (compareFiles op (lookup sys left) (lookup sys right))

/-- The truth of an expression; a comparison with an operand that is no integer makes an
error of the whole. -/
def Expr.truth : Expr → Option Bool
  | .string s => some !s.isEmpty
  | .unary op s => some (unaryTruth sys granted op s)
  | .binary left op right => binaryTruth sys left op right
  | .group e => e.truth
  | .not e => e.truth.map (!·)
  | .and left right => do return (← left.truth) && (← right.truth)
  | .or left right => do return (← left.truth) || (← right.truth)

/-! ## Where the reader reads so -/

/-- The levels of the grammar. -/
inductive Level where
  | primary
  | negation
  | conjunction
  | disjunction

/-- The operand names a file if it has to, and the permission bits say what is granted. -/
def UnaryClear (op s : Text) : Prop :=
  stringTests.contains op = true ∨ s ≠ [] ∧ (accessTests.contains op = true →
    ∀ m, sys.metadata (testPath sys s) = some m → granted op (testPath sys s) = permits sys op m)

/-- The operands are integers, or names of files, if they have to be. -/
def BinaryClear (left op right : Text) : Prop :=
  stringOperators.contains op = true ∨
    (if integerOperators.contains op then
      (Numeral.parseI64 left).isSome ∧ (Numeral.parseI64 right).isSome
    else left ≠ [] ∧ right ≠ [])

/-- No string of the expression is taken for something else: none that starts a primary is
`(`, none that starts an operand of `-a` or `-o` is `!`, a `!` stands in front of a primary,
and no operand of a unary operator looks like an operator. -/
inductive Clear : Level → Expr → Prop where
  | string {s : Text} (hs : s ≠ ['(']) : Clear .primary (.string s)
  | unary {op s : Text} (hop : isUnary op = true) (hbinary : isBinary s = false)
      (hoperand : noOperands.contains s = false) (hclear : UnaryClear sys granted op s) :
      Clear .primary (.unary op s)
  | binary {left op right : Text} (hop : isBinary op = true) (hleft : left ≠ ['('])
      (hclear : BinaryClear left op right) : Clear .primary (.binary left op right)
  | group {e : Expr} (h : Clear .disjunction e) : Clear .primary (.group e)
  | primary {e : Expr} (h : Clear .primary e) (hbang : e.tokens.head? ≠ some ['!']) :
      Clear .negation e
  | not {e : Expr} (h : Clear .primary e) : Clear .negation (.not e)
  | negation {e : Expr} (h : Clear .negation e) : Clear .conjunction e
  | and {left right : Expr} (hleft : Clear .negation left) (hright : Clear .conjunction right) :
      Clear .conjunction (.and left right)
  | conjunction {e : Expr} (h : Clear .conjunction e) : Clear .disjunction e
  | or {left right : Expr} (hleft : Clear .conjunction left) (hright : Clear .disjunction right) :
      Clear .disjunction (.or left right)

/-! ## Operands -/

variable {sys granted}

theorem parseInteger_of_parseI64 {operand : Text} (h : (Numeral.parseI64 operand).isSome) :
    Numeral.parseInt operand = some (parseInteger operand) := by
  obtain ⟨n, hn⟩ := Option.isSome_iff_exists.mp h
  obtain ⟨value, hvalue, hrange⟩ := Option.bind_eq_some_iff.mp hn
  obtain ⟨⟨hle, hlt⟩, rfl⟩ := Option.ite_none_right_eq_some.mp hrange |>.imp_right Option.some.inj
  rw [parseInteger, hn, hvalue, Option.map_some, Option.getD_some, Int64.toInt_ofInt_of_le hle hlt]

theorem unaryPrimary_of_clear (h : UnaryClear sys granted op s) :
    unaryTruth sys granted op s = unaryPrimary sys op s := by
  unfold unaryTruth unaryPrimary
  split
  · rfl
  · next hstring =>
    obtain ⟨hs, hgranted⟩ := h.resolve_left hstring
    rw [if_neg hs]
    split
    · next haccess =>
      cases hm : sys.metadata (testPath sys s) with
      | none => rfl
      | some m => simp [hgranted haccess m hm]
    · rfl

theorem binaryPrimary_of_clear (h : BinaryClear left op right) :
    binaryTruth sys left op right = some (binaryPrimary sys left op right) := by
  unfold binaryTruth binaryPrimary
  split
  · rfl
  · next hstring =>
    have hclear := h.resolve_left hstring
    split at hclear
    · next hinteger =>
      rw [if_pos hinteger, if_pos hinteger, parseInteger_of_parseI64 hclear.1,
        parseInteger_of_parseI64 hclear.2]
      rfl
    · next hinteger =>
      rw [if_neg hinteger, if_neg hinteger, lookup, lookup, if_neg hclear.1, if_neg hclear.2]

/-! ## The loops -/

section Loops

variable {op : Text} {combine : Bool → Bool → Bool} {next : List Text → Bool × List Text}

/-- The loop for `op`, begun with `next`, gives `b` and leaves `rest`. -/
def Runs (op : Text) (combine : Bool → Bool → Bool) (next : List Text → Bool × List Text)
    (b : Bool) (args rest : List Text) : Prop :=
  ∃ first after, next args = (first, after) ∧ after.length ≤ args.length ∧
    ∀ r n, after.length ≤ n → testLoop op combine next n (combine r first) after = (combine r b, rest)

theorem Runs.one {b args rest} (h : next args = (b, rest))
    (hlength : rest.length ≤ args.length) (hrest : rest.head? ≠ some op) :
    Runs op combine next b args rest := by
  refine ⟨b, rest, h, hlength, fun r n _ => ?_⟩
  cases n with
  | zero => rfl
  | succ n =>
    cases rest with
    | nil => rfl
    | cons word rest =>
      have hword : word ≠ op := fun heq => hrest (congrArg some heq)
      rw [testLoop, if_neg hword]

theorem Runs.more {b c args args' rest} (h : next args = (b, op :: args'))
    (hlength : args'.length < args.length) (hmore : Runs op combine next c args' rest)
    (hassoc : ∀ r, combine (combine r b) c = combine r (combine b c)) :
    Runs op combine next (combine b c) args rest := by
  obtain ⟨first, after, hnext, hafter, hloop⟩ := hmore
  refine ⟨b, op :: args', h, hlength, fun r n hn => ?_⟩
  cases n with
  | zero => simp at hn
  | succ n =>
    have hfuel : after.length ≤ n := by simp only [List.length_cons] at hn; omega
    rw [testLoop, if_pos rfl, hnext]
    simp only
    rw [hloop _ n hfuel, hassoc]

end Loops

/-! ## Expressions -/

/-- What may stand behind an expression of the level. -/
def Follows : Level → List Text → Prop
  | .disjunction, rest => ∀ w ∈ rest.head?, w = [')']
  | .conjunction, rest => ∀ w ∈ rest.head?, w = [')'] ∨ w = "-o".toList
  | _, rest => ∀ w ∈ rest.head?, w = [')'] ∨ w = "-a".toList ∨ w = "-o".toList

/-- The functions of the level read `b` and leave `rest`. -/
def Reads (sys : System) (n : Nat) (b : Bool) (args rest : List Text) : Level → Prop
  | .primary => testPrimary sys (testOr sys n) args = (b, rest)
  | .negation => testNot sys (testOr sys n) args = (b, rest)
  | .conjunction => Runs "-a".toList and (testNot sys (testOr sys n)) b args rest
  | .disjunction => Runs "-o".toList or (testAnd sys (testOr sys n)) b args rest

theorem testAnd_of_runs {inner b args rest}
    (h : Runs "-a".toList and (testNot sys inner) b args rest) :
    testAnd sys inner args = (b, rest) := by
  obtain ⟨first, after, hnext, -, hloop⟩ := h
  have := hloop true after.length le_rfl
  simpa only [testAnd, hnext, Bool.true_and] using this

theorem testOr_of_runs
    (h : Runs "-o".toList or (testAnd sys (testOr sys n)) b args rest) :
    testOr sys (n + 1) args = (b, rest) := by
  obtain ⟨first, after, hnext, -, hloop⟩ := h
  have := hloop false after.length le_rfl
  simpa only [testOr, hnext, Bool.false_or] using this

theorem isBinary_of_follows {word : Text} (h : word = [')'] ∨ word = "-a".toList ∨ word = "-o".toList) :
    isBinary word = false ∧ noOperands.contains word = true := by
  rcases h with rfl | rfl | rfl <;> decide

/-- A string in front of what ends an expression is one by itself. -/
theorem testPrimary_string {inner} {s : Text} {rest : List Text}
    (hs : s ≠ ['(']) (hrest : Follows .primary rest) :
    testPrimary sys inner (s :: rest) = (!s.isEmpty, rest) := by
  cases rest with
  | nil => rw [testPrimary.eq_def]; simp only [if_neg hs, testUnary]
  | cons word rest =>
    rw [testPrimary, if_neg hs]
    obtain ⟨hbinary, hoperand⟩ := isBinary_of_follows (hrest word rfl)
    simp only [hbinary, testUnary, hoperand, Bool.not_true, Bool.and_false, Bool.false_eq_true,
      if_false]

theorem testPrimary_unary {inner op s rest}
    (hop : isUnary op = true) (hbinary : isBinary s = false)
    (hoperand : noOperands.contains s = false) :
    testPrimary sys inner (op :: s :: rest) = (unaryPrimary sys op s, rest) := by
  have hparenthesis : op ≠ ['('] := by
    rintro rfl
    exact absurd hop (by decide)
  rw [testPrimary, if_neg hparenthesis]
  simp only [hbinary, testUnary, hop, hoperand, Bool.not_false, Bool.and_true, Bool.false_eq_true,
    if_false, if_true]

theorem testPrimary_binary {inner} {left op right : Text}
    {rest : List Text} (hop : isBinary op = true) (hleft : left ≠ ['(']) :
    testPrimary sys inner (left :: op :: right :: rest) = (binaryPrimary sys left op right, rest) := by
  rw [testPrimary, if_neg hleft]
  simp only [hop, if_true, List.head?_cons, Option.getD_some, List.tail_cons]

theorem testPrimary_group
    (h : Reads sys n b args ([')'] :: rest) .disjunction) :
    testPrimary sys (testOr sys (n + 1)) (['('] :: args) = (b, rest) := by
  rw [testPrimary.eq_def]
  simp only [if_pos, testOr_of_runs h, List.head?_cons, List.tail_cons]

theorem testNot_of_ne {inner} {args : List Text}
    (h : args.head? ≠ some ['!']) : testNot sys inner args = testPrimary sys inner args := by
  cases args with
  | nil => rfl
  | cons word rest => rw [testNot, if_neg fun heq => h (congrArg some heq)]

theorem Expr.tokens_ne_nil (e : Expr) : e.tokens ≠ [] := by
  cases e <;> simp [tokens]

/-- The reader takes up the words of a clear expression and gives its truth. -/
theorem Clear.reads (h : Clear sys granted l e) :
    ∃ b, e.truth sys granted = some b ∧ ∀ n rest, e.tokens.length ≤ n → Follows l rest →
      Reads sys n b (e.tokens ++ rest) rest l := by
  induction h with
  | string hs => exact ⟨_, rfl, fun n rest _ hrest => testPrimary_string hs hrest⟩
  | unary hop hbinary hoperand hclear =>
    exact ⟨_, congrArg some (unaryPrimary_of_clear hclear),
      fun n rest _ _ => testPrimary_unary hop hbinary hoperand⟩
  | binary hop hleft hclear =>
    exact ⟨_, binaryPrimary_of_clear hclear, fun n rest _ _ => testPrimary_binary hop hleft⟩
  | @group e _ ih =>
    obtain ⟨b, htruth, hreads⟩ := ih
    refine ⟨b, htruth, fun n rest hn _ => ?_⟩
    simp only [Expr.tokens, List.length_append, List.length_cons] at hn
    obtain ⟨n, rfl⟩ : ∃ m, n = m + 1 := ⟨n - 1, by omega⟩
    have hinner := hreads n ([')'] :: rest) (by omega) (by simp [Follows])
    simpa [Reads, Expr.tokens] using testPrimary_group hinner
  | @primary e _ hbang ih =>
    obtain ⟨b, htruth, hreads⟩ := ih
    refine ⟨b, htruth, fun n rest hn hrest => ?_⟩
    have hhead : (e.tokens ++ rest).head? ≠ some ['!'] := by
      rwa [List.head?_append_of_ne_nil _ e.tokens_ne_nil]
    exact (testNot_of_ne hhead).trans (hreads n rest hn hrest)
  | not _ ih =>
    obtain ⟨b, htruth, hreads⟩ := ih
    refine ⟨!b, congrArg (Option.map (!·)) htruth, fun n rest hn hrest => ?_⟩
    have hinner := hreads n rest (Nat.le_of_succ_le hn) hrest
    rw [Reads, Expr.tokens, List.cons_append, testNot, if_pos rfl, hinner]
  | negation _ ih =>
    obtain ⟨b, htruth, hreads⟩ := ih
    refine ⟨b, htruth, fun n rest hn hrest => ?_⟩
    refine .one (hreads n rest hn fun w hw => (hrest w hw).imp_right .inr) (by simp) ?_
    intro heq
    have := hrest _ heq
    exact absurd this (by decide)
  | @and left right _ _ ihleft ihright =>
    obtain ⟨b, htruthb, hleft⟩ := ihleft
    obtain ⟨c, htruthc, hright⟩ := ihright
    refine ⟨b && c, by rw [Expr.truth, htruthb, htruthc]; rfl, fun n rest hn hrest => ?_⟩
    simp only [Expr.tokens, List.length_append, List.length_cons] at hn
    rw [Expr.tokens, List.append_assoc, List.cons_append]
    exact .more (hleft n _ (by omega) (by simp [Follows])) (by simp; omega)
      (hright n rest (by omega) hrest) fun r => Bool.and_assoc r b c
  | conjunction _ ih =>
    obtain ⟨b, htruth, hreads⟩ := ih
    refine ⟨b, htruth, fun n rest hn hrest => ?_⟩
    refine .one (testAnd_of_runs (hreads n rest hn fun w hw => .inl (hrest w hw))) (by simp) ?_
    intro heq
    exact absurd (hrest _ heq) (by decide)
  | @or left right _ _ ihleft ihright =>
    obtain ⟨b, htruthb, hleft⟩ := ihleft
    obtain ⟨c, htruthc, hright⟩ := ihright
    refine ⟨b || c, by rw [Expr.truth, htruthb, htruthc]; rfl, fun n rest hn hrest => ?_⟩
    simp only [Expr.tokens, List.length_append, List.length_cons] at hn
    rw [Expr.tokens, List.append_assoc, List.cons_append]
    exact .more (testAnd_of_runs (hleft n _ (by omega) (by simp [Follows]))) (by simp; omega)
      (hright n rest (by omega) hrest) fun r => Bool.or_assoc r b c

theorem tokens_of_reading (h : reading args = some e) :
    e.tokens = args := by
  have h₂ : ∀ {a b e}, reading₂ a b = some e → e.tokens = [a, b] := by
    intro a b e h
    unfold reading₂ at h
    split_ifs at h <;> cases h <;> simp_all [Expr.tokens]
  have h₃ : ∀ {a b c e}, reading₃ a b c = some e → e.tokens = [a, b, c] := by
    intro a b c e h
    unfold reading₃ at h
    split_ifs at h with _ hb hb ha ha
    · cases h; rfl
    · cases h; rw [hb]; rfl
    · cases h; rw [hb]; rfl
    · obtain ⟨e', he', rfl⟩ := Option.map_eq_some_iff.mp h
      rw [Expr.tokens, h₂ he', ha]
    · cases h; rw [ha.1, ha.2]; rfl
  unfold reading at h
  split at h
  · cases h; rfl
  · exact h₂ h
  · exact h₃ h
  · split_ifs at h with ha ha
    · obtain ⟨e', he', rfl⟩ := Option.map_eq_some_iff.mp h
      rw [Expr.tokens, h₃ he', ha]
    · obtain ⟨e', he', rfl⟩ := Option.map_eq_some_iff.mp h
      rw [Expr.tokens, h₂ he', ha.1, ha.2]
      rfl
  · cases h

theorem ReadAs.tokens (h : ReadAs args e) : e.tokens = args :=
  h.elim tokens_of_reading And.right

/-! ## The command -/

theorem testEval_of_clear (h : Clear sys granted .disjunction e) :
    ∃ b, e.truth sys granted = some b ∧ testEval sys e.tokens = status b ∧
      ∀ rest, testEval sys (e.tokens ++ [')'] :: rest) = .MISUSE := by
  obtain ⟨b, htruth, hreads⟩ := h.reads
  have hor : ∀ args rest, args = e.tokens ++ rest → Follows .disjunction rest →
      testEval sys args = if rest.isEmpty then status b else .MISUSE := by
    rintro _ rest rfl hrest
    have hn : e.tokens.length ≤ (e.tokens ++ rest).length := by simp
    have hne : (e.tokens ++ rest).isEmpty = false := by simp [e.tokens_ne_nil]
    rw [testEval, hne, if_neg Bool.false_ne_true, testOr_of_runs (hreads _ rest hn hrest)]
  refine ⟨b, htruth, hor _ [] (by simp) (by simp [Follows]), fun rest => ?_⟩
  exact hor _ _ rfl (by simp [Follows])

/-- No files but the root directory. -/
def System.bare : System where
  metadata path := if path = [UnixPath.SLASH] then some ⟨.Dir, 0o755, 0, 0, 0, 0, 1⟩ else none
  symlink_metadata _ := none
  uid := 0
  isatty _ := false
  cwd := [UnixPath.SLASH]

end Ish.Epsh.TestCmd
