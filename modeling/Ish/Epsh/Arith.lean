import Ish.Epsh.Var

/-!
# Arithmetic expansion

The model of `crates/epsh/src/arith.rs`: the tokenizer, and the parser that
evaluates while it parses. The parser's position is the list of tokens that are
left. Its recursion runs on fuel; `Ish.Epsh.ArithRefine` shows that `evalArith`
gives it enough.
-/

namespace Ish.Epsh

open Ish.Lib

inductive ArithToken where
  | Num (n : Int64)
  | Var (name : Text)
  | Plus | Minus | Star | Slash | Percent | LParen | RParen
  | Eq | Ne | Lt | Le | Gt | Ge | And | Or | BitAnd | BitOr | BitXor | Shl | Shr
  | Not | BitNot | Assign | Question | Colon
  | AddAssign | SubAssign | MulAssign | DivAssign | ModAssign
  | ShlAssign | ShrAssign | AndAssign | OrAssign | XorAssign
deriving DecidableEq, Repr

/-- `{tok:?}`; a name is an identifier, so its `Debug` form escapes nothing. -/
def ArithToken.debug : ArithToken → Text
  | Num n => "Num(".toList ++ Numeral.i64ToString n ++ [')']
  | Var name => "Var(\"".toList ++ name ++ "\")".toList
  | Plus => "Plus".toList | Minus => "Minus".toList | Star => "Star".toList
  | Slash => "Slash".toList | Percent => "Percent".toList
  | LParen => "LParen".toList | RParen => "RParen".toList
  | Eq => "Eq".toList | Ne => "Ne".toList | Lt => "Lt".toList | Le => "Le".toList
  | Gt => "Gt".toList | Ge => "Ge".toList | And => "And".toList | Or => "Or".toList
  | BitAnd => "BitAnd".toList | BitOr => "BitOr".toList | BitXor => "BitXor".toList
  | Shl => "Shl".toList | Shr => "Shr".toList | Not => "Not".toList
  | BitNot => "BitNot".toList | Assign => "Assign".toList
  | Question => "Question".toList | Colon => "Colon".toList
  | AddAssign => "AddAssign".toList | SubAssign => "SubAssign".toList
  | MulAssign => "MulAssign".toList | DivAssign => "DivAssign".toList
  | ModAssign => "ModAssign".toList | ShlAssign => "ShlAssign".toList
  | ShrAssign => "ShrAssign".toList | AndAssign => "AndAssign".toList
  | OrAssign => "OrAssign".toList | XorAssign => "XorAssign".toList

/-! ## The tokenizer -/

def isHexDigit (c : Char) : Bool :=
  c.isDigit || ('a' ≤ c && c ≤ 'f') || ('A' ≤ c && c ≤ 'F')

def isOctDigit (c : Char) : Bool := '0' ≤ c && c ≤ '7'

def digitValue (c : Char) : Nat :=
  if c.isDigit then c.toNat - '0'.toNat
  else if 'a' ≤ c then c.toNat - 'a'.toNat + 10
  else c.toNat - 'A'.toNat + 10

/-- `i64::from_str_radix` of digits of the radix: none of no digits, nor of a
value that does not fit. -/
def fromStrRadix (digits : Text) (radix : Nat) : Option Int64 :=
  let n := digits.foldl (fun n c => n * radix + digitValue c) 0
  if digits ≠ [] ∧ n < 2 ^ 63 then some (Int64.ofNat n) else none

/-- One number, and the text after it; the first character is a digit. -/
def lexNumber (chars : Text) : Except Text (Int64 × Text) :=
  let hex (x : Char) (rest : Text) :=
    let digits := rest.takeWhile isHexDigit
    match fromStrRadix digits 16 with
    | some n => .ok (n, rest.dropWhile isHexDigit)
    | none => .error ("invalid hex: ".toList ++ '0' :: x :: digits)
  let oct (rest : Text) :=
    let digits := rest.takeWhile isOctDigit
    match fromStrRadix digits 8 with
    | some n => .ok (n, rest.dropWhile isOctDigit)
    | none => .error ("invalid octal: ".toList ++ digits)
  let dec :=
    let digits := chars.takeWhile Char.isDigit
    match fromStrRadix digits 10 with
    | some n => .ok (n, chars.dropWhile Char.isDigit)
    | none => .error ("invalid number: ".toList ++ digits)
  match chars with
  | '0' :: x :: rest =>
    if x = 'x' ∨ x = 'X' then hex x rest
    else if isOctDigit x then oct (x :: rest)
    else dec
  | _ => dec

def isNameStart (c : Char) : Bool := c == '_' || c.isAlpha

def isNameChar (c : Char) : Bool := c == '_' || c.isAlphanum

/-- One operator and the text after it. -/
def lexOperator : Text → Option (ArithToken × Text)
  | '+' :: '=' :: rest => some (.AddAssign, rest)
  | '+' :: rest => some (.Plus, rest)
  | '-' :: '=' :: rest => some (.SubAssign, rest)
  | '-' :: rest => some (.Minus, rest)
  | '*' :: '=' :: rest => some (.MulAssign, rest)
  | '*' :: rest => some (.Star, rest)
  | '/' :: '=' :: rest => some (.DivAssign, rest)
  | '/' :: rest => some (.Slash, rest)
  | '%' :: '=' :: rest => some (.ModAssign, rest)
  | '%' :: rest => some (.Percent, rest)
  | '(' :: rest => some (.LParen, rest)
  | ')' :: rest => some (.RParen, rest)
  | '=' :: '=' :: rest => some (.Eq, rest)
  | '=' :: rest => some (.Assign, rest)
  | '!' :: '=' :: rest => some (.Ne, rest)
  | '!' :: rest => some (.Not, rest)
  | '<' :: '=' :: rest => some (.Le, rest)
  | '<' :: '<' :: '=' :: rest => some (.ShlAssign, rest)
  | '<' :: '<' :: rest => some (.Shl, rest)
  | '<' :: rest => some (.Lt, rest)
  | '>' :: '=' :: rest => some (.Ge, rest)
  | '>' :: '>' :: '=' :: rest => some (.ShrAssign, rest)
  | '>' :: '>' :: rest => some (.Shr, rest)
  | '>' :: rest => some (.Gt, rest)
  | '&' :: '&' :: rest => some (.And, rest)
  | '&' :: '=' :: rest => some (.AndAssign, rest)
  | '&' :: rest => some (.BitAnd, rest)
  | '|' :: '|' :: rest => some (.Or, rest)
  | '|' :: '=' :: rest => some (.OrAssign, rest)
  | '|' :: rest => some (.BitOr, rest)
  | '^' :: '=' :: rest => some (.XorAssign, rest)
  | '^' :: rest => some (.BitXor, rest)
  | '~' :: rest => some (.BitNot, rest)
  | '?' :: rest => some (.Question, rest)
  | ':' :: rest => some (.Colon, rest)
  | _ => none

/-- The loop of `tokenize`; every round takes a character, so their number is
fuel enough. -/
def tokenizeLoop : Nat → Text → Except Text (List ArithToken)
  | 0, _ => .ok []
  | _, [] => .ok []
  | fuel + 1, c :: chars =>
    if c = ' ' ∨ c = '\t' ∨ c = '\n' then tokenizeLoop fuel chars
    else if c.isDigit then do
      let (n, rest) ← lexNumber (c :: chars)
      return .Num n :: (← tokenizeLoop fuel rest)
    else if isNameStart c then do
      let name := (c :: chars).takeWhile isNameChar
      return .Var name :: (← tokenizeLoop fuel ((c :: chars).dropWhile isNameChar))
    else match lexOperator (c :: chars) with
      | some (tok, rest) => do return tok :: (← tokenizeLoop fuel rest)
      | none => .error ("unexpected character in arithmetic: '".toList ++ [c, '\''])

def tokenize (expr : Text) : Except Text (List ArithToken) :=
  tokenizeLoop expr.length expr

/-! ## Variables and operators -/

/-- The parser's state; `tokens` are those from the position on. -/
structure ArithParser where
  tokens : List ArithToken
  vars : Variables
  exit_status : Int
  shell_pid : Nat
  noeval : Bool

/-- `&mut self` methods that may fail: an error keeps the state it happened in. -/
abbrev ArithM := EStateM Text ArithParser

namespace ArithParser

def peek : ArithM (Option ArithToken) := return (← get).tokens.head?

/-- `self.pos += 1` -/
def bump : ArithM Unit := modify fun p => { p with tokens := p.tokens.tail }

def advance : ArithM (Option ArithToken) := do
  let tok ← peek
  bump
  return tok

def expect (expected : ArithToken) : ArithM Unit := do
  match ← advance with
  | some tok =>
    if tok = expected then return ()
    else throw ("expected ".toList ++ expected.debug ++ ", got ".toList ++ tok.debug)
  | none =>
    throw ("expected ".toList ++ expected.debug ++ ", got end of expression".toList)

/-- The value of a variable: the cached integer, else its text as an integer. -/
def varValue (vars : Variables) (exit_status : Int) (shell_pid : Nat) (name : Text) :
    Int64 :=
  match vars.getInt name with
  | some n => n
  | none =>
    let text := (vars.getSpecial name exit_status shell_pid [] none).orElse
      fun _ => vars.get name
    (text.bind Numeral.parseI64).getD 0

def getVar (name : Text) : ArithM Int64 := do
  let p ← get
  return varValue p.vars p.exit_status p.shell_pid name

/-- `let _ = self.vars.set_int(name, value)`: a read-only variable stays. -/
def assign (vars : Variables) (name : Text) (value : Int64) : Variables :=
  match vars.setInt name value with
  | .ok vars => vars
  | .error _ => vars

def setVar (name : Text) (value : Int64) : ArithM Unit :=
  modify fun p => if p.noeval then p else { p with vars := assign p.vars name value }

/-- The operator of a compound assignment; `none` for every other token. -/
def assignmentBinaryOp : ArithToken → Option ArithToken
  | .AddAssign => some .Plus
  | .SubAssign => some .Minus
  | .MulAssign => some .Star
  | .DivAssign => some .Slash
  | .ModAssign => some .Percent
  | .ShlAssign => some .Shl
  | .ShrAssign => some .Shr
  | .AndAssign => some .BitAnd
  | .OrAssign => some .BitOr
  | .XorAssign => some .BitXor
  | _ => none

def ofBool (b : Bool) : Int64 := if b then 1 else 0

/-- `shift::count` with its error. -/
def shiftCount (count : Int64) : Except Text Nat :=
  if 0 ≤ count ∧ count ≤ 63 then .ok count.toInt.toNat
  else .error "shift count out of range".toList

def checkDivisor (left right : Int64) : Except Text Unit :=
  if right = 0 then .error "division by zero".toList
  else if left = Int64.minValue ∧ right = -1 then .error "division overflow".toList
  else .ok ()

/-- `apply_binop` when it evaluates. -/
def binopValue (tok : ArithToken) (left right : Int64) : Except Text Int64 :=
  match tok with
  | .BitOr => .ok (left ||| right)
  | .BitXor => .ok (left ^^^ right)
  | .BitAnd => .ok (left &&& right)
  | .Eq => .ok (ofBool (left = right))
  | .Ne => .ok (ofBool (left ≠ right))
  | .Lt => .ok (ofBool (left < right))
  | .Le => .ok (ofBool (left ≤ right))
  | .Gt => .ok (ofBool (right < left))
  | .Ge => .ok (ofBool (right ≤ left))
  | .Shl => (shiftCount right).map fun n => Int64.ofBitVec (left.toBitVec <<< n)
  | .Shr => (shiftCount right).map fun n =>
    Int64.ofBitVec (left.toBitVec.sshiftRight n)
  | .Plus => .ok (left + right)
  | .Minus => .ok (left - right)
  | .Star => .ok (left * right)
  | .Slash => (checkDivisor left right).map fun _ => left / right
  | .Percent => (checkDivisor left right).map fun _ => left % right
  | _ => .error "internal error: entered unreachable code".toList

def applyBinop (tok : ArithToken) (left right : Int64) : ArithM Int64 := do
  if (← get).noeval then return 0
  match binopValue tok left right with
  | .ok n => return n
  | .error e => throw e

def precedence : ArithToken → Option Nat
  | .BitOr => some 1
  | .BitXor => some 2
  | .BitAnd => some 3
  | .Eq | .Ne => some 4
  | .Lt | .Le | .Gt | .Ge => some 5
  | .Shl | .Shr => some 6
  | .Plus | .Minus => some 7
  | .Star | .Slash | .Percent => some 8
  | _ => none

/-! ## The parser -/

def setNoeval (noeval : Bool) : ArithM Unit := modify fun p => { p with noeval }

def outOfFuel : ArithM Int64 := throw "out of fuel".toList

def unexpectedEnd : Text := "unexpected end of expression".toList

/-- `format!("unexpected token: {tok:?}")` -/
def unexpectedToken (tok : ArithToken) : Text := "unexpected token: ".toList ++ tok.debug

mutual

/-- `parse_expr` is `parse_assignment`. -/
def parseExpr : Nat → ArithM Int64
  | 0 => outOfFuel
  | fuel + 1 => parseAssignment fuel

def parseAssignment : Nat → ArithM Int64
  | 0 => outOfFuel
  | fuel + 1 => do
    match ← peek with
    | some (.Var name) =>
      let saved := (← get).tokens
      bump
      let op ← peek
      if op = some .Assign then
        bump
        let val ← parseAssignment fuel
        setVar name val
        return val
      else match op.bind assignmentBinaryOp with
        | some binary_op =>
          bump
          let right ← parseAssignment fuel
          let left ← getVar name
          let val ← applyBinop binary_op left right
          setVar name val
          return val
        | none =>
          modify fun p => { p with tokens := saved }
          parseTernary fuel
    | _ => parseTernary fuel

def parseTernary : Nat → ArithM Int64
  | 0 => outOfFuel
  | fuel + 1 => do
    let cond ← parseOr fuel
    if (← peek) = some .Question then
      bump
      let saved := (← get).noeval
      setNoeval (saved || cond = 0)
      let then_val ← parseExpr fuel
      expect .Colon
      setNoeval (saved || cond ≠ 0)
      let else_val ← parseExpr fuel
      setNoeval saved
      return if cond ≠ 0 then then_val else else_val
    else return cond

def parseOr : Nat → ArithM Int64
  | 0 => outOfFuel
  | fuel + 1 => do
    let left ← parseAnd fuel
    orLoop fuel left

/-- `while self.peek() == Some(&ArithToken::Or)` -/
def orLoop : Nat → Int64 → ArithM Int64
  | 0, _ => outOfFuel
  | fuel + 1, left => do
    if (← peek) = some .Or then
      bump
      let saved := (← get).noeval
      setNoeval (saved || left ≠ 0)
      let right ← parseAnd fuel
      setNoeval saved
      orLoop fuel (ofBool (left ≠ 0 ∨ right ≠ 0))
    else return left

def parseAnd : Nat → ArithM Int64
  | 0 => outOfFuel
  | fuel + 1 => do
    let left ← parseBinop fuel 1
    andLoop fuel left

/-- `while self.peek() == Some(&ArithToken::And)` -/
def andLoop : Nat → Int64 → ArithM Int64
  | 0, _ => outOfFuel
  | fuel + 1, left => do
    if (← peek) = some .And then
      bump
      let saved := (← get).noeval
      setNoeval (saved || left = 0)
      let right ← parseBinop fuel 1
      setNoeval saved
      andLoop fuel (ofBool (left ≠ 0 ∧ right ≠ 0))
    else return left

def parseBinop : Nat → Nat → ArithM Int64
  | 0, _ => outOfFuel
  | fuel + 1, min_prec => do
    let left ← parseUnary fuel
    binopLoop fuel min_prec left

/-- `while let Some(tok) .. && let Some(prec) .. && prec >= min_prec` -/
def binopLoop : Nat → Nat → Int64 → ArithM Int64
  | 0, _, _ => outOfFuel
  | fuel + 1, min_prec, left => do
    match ← peek with
    | some tok =>
      match precedence tok with
      | some prec =>
        if min_prec ≤ prec then
          bump
          let right ← parseBinop fuel (prec + 1)
          let left ← applyBinop tok left right
          binopLoop fuel min_prec left
        else return left
      | none => return left
    | none => return left

def parseUnary : Nat → ArithM Int64
  | 0 => outOfFuel
  | fuel + 1 => do
    match ← peek with
    | some .Plus =>
      bump
      parseUnary fuel
    | some .Minus =>
      bump
      return -(← parseUnary fuel)
    | some .Not =>
      bump
      return ofBool ((← parseUnary fuel) = 0)
    | some .BitNot =>
      bump
      return ~~~(← parseUnary fuel)
    | _ => parsePrimary fuel

def parsePrimary : Nat → ArithM Int64
  | 0 => outOfFuel
  | fuel + 1 => do
    match ← advance with
    | some (.Num n) => return n
    | some (.Var name) => getVar name
    | some .LParen =>
      let val ← parseExpr fuel
      expect .RParen
      return val
    | some tok => throw (unexpectedToken tok)
    | none => throw unexpectedEnd

end

end ArithParser

/-- Fuel for the parser: no token is looked at more than once a level. -/
def arithFuel (tokens : List ArithToken) : Nat := 16 * (tokens.length + 1)

/-- What `eval_arith` returns, and the variables it leaves. -/
def evalArithTokens (tokens : List ArithToken) (vars : Variables) (exit_status : Int)
    (shell_pid : Nat) : Except Text Int64 × Variables :=
  match ArithParser.parseExpr (arithFuel tokens)
      { tokens, vars, exit_status, shell_pid, noeval := false } with
  | .ok result p =>
    match p.tokens with
    | [] => (.ok result, p.vars)
    | tok :: _ => (.error (ArithParser.unexpectedToken tok), p.vars)
  | .error e p => (.error e, p.vars)

def evalArith (expr : Text) (vars : Variables) (exit_status : Int) (shell_pid : Nat) :
    Except Text Int64 × Variables :=
  match tokenize expr with
  | .ok tokens => evalArithTokens tokens vars exit_status shell_pid
  | .error e => (.error e, vars)

end Ish.Epsh
