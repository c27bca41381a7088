import Ish.Epsh.Arith

/-!
# Arithmetic expressions: syntax trees and their value

What arithmetic expansion is compared with, in two phases: the operator grammar
of the documentation (`Derives`, from tokens to a tree), and the evaluation of
a tree over the integers, wrapped to 64 bits (`ArithExpr.eval`).
-/

namespace Ish.Epsh

inductive BinOp where
  | bitOr | bitXor | bitAnd | eq | ne | lt | le | gt | ge | shl | shr
  | add | sub | mul | div | mod
deriving DecidableEq

inductive UnOp where
  | plus | minus | not | bitNot
deriving DecidableEq

inductive ArithExpr where
  | num (n : Int64)
  | var (name : Text)
  | unary (op : UnOp) (e : ArithExpr)
  | binary (op : BinOp) (l r : ArithExpr)
  | and (l r : ArithExpr)
  | or (l r : ArithExpr)
  | cond (c t f : ArithExpr)
  | assign (name : Text) (e : ArithExpr)
  | compound (name : Text) (op : BinOp) (e : ArithExpr)

/-! ## Values -/

/-- The 64-bit integer that an integer wraps to. -/
def wrap (n : Int) : Int64 := Int64.ofInt n

def truth (p : Prop) [Decidable p] : Int64 := if p then 1 else 0

def UnOp.apply : UnOp → Int64 → Int64
  | plus, a => a
  | minus, a => wrap (-a.toInt)
  | not, a => truth (a.toInt = 0)
  | bitNot, a => wrap (-a.toInt - 1)

/-- Division is by the quotient `q`, and fails where there is none in range. -/
def divide (a b q : Int) : Except Text Int64 :=
  if b = 0 then .error "division by zero".toList
  else if a = -2 ^ 63 ∧ b = -1 then .error "division overflow".toList
  else .ok (wrap q)

/-- A shift by `b`, which gives `n`, and fails unless `0 ≤ b ≤ 63`. -/
def shift (b n : Int) : Except Text Int64 :=
  if 0 ≤ b ∧ b ≤ 63 then .ok (wrap n) else .error "shift count out of range".toList

def BinOp.apply : BinOp → Int64 → Int64 → Except Text Int64
  | bitOr, a, b => .ok (a ||| b)
  | bitXor, a, b => .ok (a ^^^ b)
  | bitAnd, a, b => .ok (a &&& b)
  | eq, a, b => .ok (truth (a.toInt = b.toInt))
  | ne, a, b => .ok (truth (a.toInt ≠ b.toInt))
  | lt, a, b => .ok (truth (a.toInt < b.toInt))
  | le, a, b => .ok (truth (a.toInt ≤ b.toInt))
  | gt, a, b => .ok (truth (a.toInt > b.toInt))
  | ge, a, b => .ok (truth (a.toInt ≥ b.toInt))
  | shl, a, b => shift b.toInt (a.toInt * 2 ^ b.toInt.toNat)
  | shr, a, b => shift b.toInt (a.toInt / 2 ^ b.toInt.toNat)
  | add, a, b => .ok (wrap (a.toInt + b.toInt))
  | sub, a, b => .ok (wrap (a.toInt - b.toInt))
  | mul, a, b => .ok (wrap (a.toInt * b.toInt))
  | div, a, b => divide a.toInt b.toInt (a.toInt.tdiv b.toInt)
  | mod, a, b => divide a.toInt b.toInt (a.toInt.tmod b.toInt)

/-! ## Evaluation -/

/-- When a compound assignment reads its destination. -/
inductive ReadOrder where
  | beforeOperand
  | afterOperand
deriving DecidableEq

section Eval

variable (order : ReadOrder) (exit_status : Int) (shell_pid : Nat)

abbrev EvalM := EStateM Text Variables

def read (name : Text) : EvalM Int64 :=
  return ArithParser.varValue (← get) exit_status shell_pid name

def store (name : Text) (value : Int64) : EvalM Unit :=
  modify fun vars => ArithParser.assign vars name value

def applyOp (op : BinOp) (a b : Int64) : EvalM Int64 :=
  match op.apply a b with
  | .ok n => return n
  | .error e => throw e

/-- The value of a tree, left operands first. `&&`, `||` and `?:` evaluate the
operand they select only. -/
def ArithExpr.eval : ArithExpr → EvalM Int64
  | num n => return n
  | var name => read exit_status shell_pid name
  | unary op e => return op.apply (← e.eval)
  | binary op l r => do
    let a ← l.eval
    let b ← r.eval
    applyOp op a b
  | and l r => do
    let a ← l.eval
    if a = 0 then return 0
    return truth ((← r.eval) ≠ 0)
  | or l r => do
    let a ← l.eval
    if a ≠ 0 then return 1
    return truth ((← r.eval) ≠ 0)
  | cond c t f => do
    let a ← c.eval
    if a ≠ 0 then t.eval else f.eval
  | assign name e => do
    let n ← e.eval
    store name n
    return n
  | compound name op e => do
    let (a, b) ← match order with
      | .beforeOperand => do
        let a ← read exit_status shell_pid name
        let b ← e.eval
        pure (a, b)
      | .afterOperand => do
        let b ← e.eval
        let a ← read exit_status shell_pid name
        pure (a, b)
    let n ← applyOp op a b
    store name n
    return n

/-- The result of a tree and the variables it leaves. -/
def ArithExpr.run (e : ArithExpr) (vars : Variables) : Except Text Int64 × Variables :=
  match e.eval order exit_status shell_pid vars with
  | .ok n vars => (.ok n, vars)
  | .error err vars => (.error err, vars)

end Eval

/-! ## The grammar -/

/-- Binary operators with their precedence, from low to high. -/
def binaryOp : ArithToken → Option (BinOp × Nat)
  | .BitOr => some (.bitOr, 1)
  | .BitXor => some (.bitXor, 2)
  | .BitAnd => some (.bitAnd, 3)
  | .Eq => some (.eq, 4)
  | .Ne => some (.ne, 4)
  | .Lt => some (.lt, 5)
  | .Le => some (.le, 5)
  | .Gt => some (.gt, 5)
  | .Ge => some (.ge, 5)
  | .Shl => some (.shl, 6)
  | .Shr => some (.shr, 6)
  | .Plus => some (.add, 7)
  | .Minus => some (.sub, 7)
  | .Star => some (.mul, 8)
  | .Slash => some (.div, 8)
  | .Percent => some (.mod, 8)
  | _ => none

def compoundOp : ArithToken → Option BinOp
  | .AddAssign => some .add
  | .SubAssign => some .sub
  | .MulAssign => some .mul
  | .DivAssign => some .div
  | .ModAssign => some .mod
  | .ShlAssign => some .shl
  | .ShrAssign => some .shr
  | .AndAssign => some .bitAnd
  | .OrAssign => some .bitOr
  | .XorAssign => some .bitXor
  | _ => none

def unaryOp : ArithToken → Option UnOp
  | .Plus => some .plus
  | .Minus => some .minus
  | .Not => some .not
  | .BitNot => some .bitNot
  | _ => none

/-- Where an expression stands: `bin k` holds the binary operators from
precedence `k` up. -/
inductive Level where
  | assign | ternary | or | and
  | bin (k : Nat)
  | unary | primary
deriving DecidableEq

/-- The operator grammar. The last operand of `?:` may be an assignment, which
takes in more than the C grammar does. -/
inductive Derives : Level → List ArithToken → ArithExpr → Prop where
  | assign {name : Text} {ts : List ArithToken} {e : ArithExpr}
      (he : Derives .assign ts e) :
      Derives .assign (.Var name :: .Assign :: ts) (.assign name e)
  | compound {name : Text} {tok : ArithToken} {op : BinOp} {ts : List ArithToken}
      {e : ArithExpr} (htok : compoundOp tok = some op) (he : Derives .assign ts e) :
      Derives .assign (.Var name :: tok :: ts) (.compound name op e)
  | toAssign {ts : List ArithToken} {e : ArithExpr} (he : Derives .ternary ts e) :
      Derives .assign ts e
  | cond {cs ts fs : List ArithToken} {c t f : ArithExpr} (hc : Derives .or cs c)
      (ht : Derives .assign ts t) (hf : Derives .assign fs f) :
      Derives .ternary (cs ++ .Question :: (ts ++ .Colon :: fs)) (.cond c t f)
  | toTernary {ts : List ArithToken} {e : ArithExpr} (he : Derives .or ts e) :
      Derives .ternary ts e
  | or {ls rs : List ArithToken} {l r : ArithExpr} (hl : Derives .or ls l)
      (hr : Derives .and rs r) : Derives .or (ls ++ .Or :: rs) (.or l r)
  | toOr {ts : List ArithToken} {e : ArithExpr} (he : Derives .and ts e) :
      Derives .or ts e
  | and {ls rs : List ArithToken} {l r : ArithExpr} (hl : Derives .and ls l)
      (hr : Derives (.bin 1) rs r) : Derives .and (ls ++ .And :: rs) (.and l r)
  | toAnd {ts : List ArithToken} {e : ArithExpr} (he : Derives (.bin 1) ts e) :
      Derives .and ts e
  | binary {tok : ArithToken} {op : BinOp} {k : Nat} {ls rs : List ArithToken}
      {l r : ArithExpr} (htok : binaryOp tok = some (op, k))
      (hl : Derives (.bin k) ls l) (hr : Derives (.bin (k + 1)) rs r) :
      Derives (.bin k) (ls ++ tok :: rs) (.binary op l r)
  | toBin {k : Nat} {ts : List ArithToken} {e : ArithExpr}
      (he : Derives (.bin (k + 1)) ts e) : Derives (.bin k) ts e
  | unaryToBin {ts : List ArithToken} {e : ArithExpr} (he : Derives .unary ts e) :
      Derives (.bin 9) ts e
  | unary {tok : ArithToken} {op : UnOp} {ts : List ArithToken} {e : ArithExpr}
      (htok : unaryOp tok = some op) (he : Derives .unary ts e) :
      Derives .unary (tok :: ts) (.unary op e)
  | toUnary {ts : List ArithToken} {e : ArithExpr} (he : Derives .primary ts e) :
      Derives .unary ts e
  | num {n : Int64} : Derives .primary [.Num n] (.num n)
  | var {name : Text} : Derives .primary [.Var name] (.var name)
  | paren {ts : List ArithToken} {e : ArithExpr} (he : Derives .assign ts e) :
      Derives .primary (.LParen :: (ts ++ [.RParen])) e

/-! ## How an expression begins -/

section Starts

variable {ts ls rs : List ArithToken} {e : ArithExpr}

/-- A token that makes no assignment of the variable before it. -/
def NotAssignment (tok : ArithToken) : Prop :=
  tok ≠ .Assign ∧ ArithParser.assignmentBinaryOp tok = none

/-- No expression of a level above assignments begins like one. -/
def StartsNoAssignment (ts : List ArithToken) : Prop :=
  ∀ name tok rest, ts = .Var name :: tok :: rest → NotAssignment tok

theorem notAssignment_of_binaryOp {tok op k}
    (h : binaryOp tok = some (op, k)) : NotAssignment tok := by
  cases tok <;> simp only [binaryOp, reduceCtorEq] at h <;>
    exact ⟨by simp, rfl⟩

theorem StartsNoAssignment.append {tok} (hne : ls ≠ [])
    (h : StartsNoAssignment ls) (htok : NotAssignment tok) :
    StartsNoAssignment (ls ++ tok :: rs) := by
  intro name tok' rest heq
  match ls, hne, h with
  | [first], _, _ =>
    simp only [List.cons_append, List.nil_append, List.cons.injEq] at heq
    rw [← heq.2.1]
    exact htok
  | first :: second :: tail, _, h =>
    simp only [List.cons_append, List.cons.injEq] at heq
    obtain ⟨rfl, rfl, -⟩ := heq
    exact h name second tail rfl

theorem Derives.ne_nil {level} (h : Derives level ts e) : ts ≠ [] := by
  induction h <;> simp_all

theorem Derives.startsNoAssignment {level} (h : Derives level ts e)
    (hlevel : level ≠ .assign) : StartsNoAssignment ts := by
  induction h with
  | assign he ih | compound htok he ih | toAssign he ih => exact absurd rfl hlevel
  | cond hc ht hf ihc iht ihf =>
    exact (ihc (by simp)).append hc.ne_nil ⟨by simp, rfl⟩
  | toTernary he ih => exact ih (by simp)
  | or hl hr ihl ihr => exact (ihl (by simp)).append hl.ne_nil ⟨by simp, rfl⟩
  | toOr he ih => exact ih (by simp)
  | and hl hr ihl ihr => exact (ihl (by simp)).append hl.ne_nil ⟨by simp, rfl⟩
  | toAnd he ih => exact ih (by simp)
  | binary htok hl hr ihl ihr =>
    exact (ihl (by simp)).append hl.ne_nil (notAssignment_of_binaryOp htok)
  | toBin he ih => exact ih (by simp)
  | unaryToBin he ih => exact ih (by simp)
  | unary htok he ih =>
    rintro name tok rest ⟨rfl, -⟩
    cases htok
  | toUnary he ih => exact ih (by simp)
  | num => rintro name tok rest ⟨⟩
  | var => rintro name tok rest ⟨⟩
  | paren he ih => rintro name tok rest ⟨⟩

end Starts

/-! ## The code's operators are the tree's -/

theorem ofBool_eq_truth (p : Prop) [Decidable p] : ArithParser.ofBool (decide p) = truth p := by
  by_cases h : p <;> simp [ArithParser.ofBool, truth, h]

variable (a : Int64)

theorem wrap_toInt : wrap a.toInt = a := by simp [wrap]

variable (a b : Int64)

theorem wrap_add : wrap (a.toInt + b.toInt) = a + b := by simp [wrap]

theorem wrap_sub : wrap (a.toInt - b.toInt) = a - b := by simp [wrap]

theorem wrap_mul : wrap (a.toInt * b.toInt) = a * b := by simp [wrap]

theorem wrap_tdiv : wrap (a.toInt.tdiv b.toInt) = a / b := by
  apply Int64.toInt_inj.mp
  simp [wrap]

theorem wrap_tmod : wrap (a.toInt.tmod b.toInt) = a % b := by
  rw [← Int64.toInt_mod, wrap_toInt]

/-- A left shift keeps the low 64 bits of the product. -/
theorem wrap_shl (n : Nat) : wrap (a.toInt * 2 ^ n) = Int64.ofBitVec (a.toBitVec <<< n) := by
  apply Int64.toInt_inj.mp
  have hbmod : a.toInt = (a.toBitVec.toNat : Int).bmod (2 ^ 64) :=
    BitVec.toInt_eq_toNat_bmod _
  rw [wrap, Int64.toInt_ofInt, Int64.toInt_ofBitVec, BitVec.toInt_shiftLeft, hbmod]
  rw [show Int64.size = 2 ^ 64 from rfl, Int.bmod_mul_bmod]
  simp [Nat.shiftLeft_eq]

/-- A right shift is arithmetic: division that rounds down. -/
theorem wrap_shr (n : Nat) :
    wrap (a.toInt / 2 ^ n) = Int64.ofBitVec (a.toBitVec.sshiftRight n) := by
  have hdiv : (Int64.ofBitVec (a.toBitVec.sshiftRight n)).toInt = a.toInt / 2 ^ n := by
    rw [Int64.toInt_ofBitVec, BitVec.toInt_sshiftRight, Int.shiftRight_eq_div_pow]
    rfl
  rw [← hdiv, wrap_toInt]

@[simp] theorem UnOp.plus_apply : plus.apply a = a := rfl

@[simp] theorem UnOp.minus_apply : minus.apply a = -a := by
  simp [apply, wrap]

@[simp] theorem UnOp.not_apply : not.apply a = ArithParser.ofBool (a = 0) := by
  have hzero : a = 0 ↔ a.toInt = 0 := Int64.toInt_inj.symm
  rw [ofBool_eq_truth, apply]
  simp only [hzero]

@[simp] theorem UnOp.bitNot_apply : bitNot.apply a = ~~~a := by
  simp [apply, wrap, Int64.not_eq_neg_add]

theorem eq_iff_toInt {a b : Int64} : a = b ↔ a.toInt = b.toInt := Int64.toInt_inj.symm

/-- `divide` checks what the code checks. -/
theorem divide_eq {q : Int} {c} (hq : wrap q = c) :
    divide a.toInt b.toInt q = (ArithParser.checkDivisor a b).map fun _ => c := by
  have hzero : b = 0 ↔ b.toInt = 0 := eq_iff_toInt
  have hmin : a = Int64.minValue ↔ a.toInt = -2 ^ 63 := eq_iff_toInt
  have hneg : b = -1 ↔ b.toInt = -1 := eq_iff_toInt
  simp only [divide, ArithParser.checkDivisor, hzero, hmin, hneg]
  split
  · rfl
  · split
    · rfl
    · rw [hq]
      rfl

/-- `shift` checks what the code checks. -/
theorem shift_eq (b : Int64) {n : Nat → Int} {f} (hf : ∀ k, wrap (n k) = f k) :
    shift b.toInt (n b.toInt.toNat) = (ArithParser.shiftCount b).map f := by
  have hlow : (0 : Int64) ≤ b ↔ 0 ≤ b.toInt := Int64.le_iff_toInt_le
  have hhigh : b ≤ 63 ↔ b.toInt ≤ 63 := Int64.le_iff_toInt_le
  simp only [shift, ArithParser.shiftCount, hlow, hhigh]
  split
  · rw [hf]
    rfl
  · rfl

theorem binopValue_eq {tok : ArithToken} {op k}
    (h : binaryOp tok = some (op, k)) (a b : Int64) :
    ArithParser.binopValue tok a b = op.apply a b := by
  have hlt : ∀ x y : Int64, x < y ↔ x.toInt < y.toInt := fun _ _ => Int64.lt_iff_toInt_lt
  have hle : ∀ x y : Int64, x ≤ y ↔ x.toInt ≤ y.toInt := fun _ _ => Int64.le_iff_toInt_le
  cases tok <;> simp only [binaryOp, reduceCtorEq, Option.some.injEq, Prod.mk.injEq] at h
    <;> obtain ⟨rfl, -⟩ := h <;> simp only [ArithParser.binopValue, BinOp.apply]
  case Plus => rw [wrap_add]
  case Minus => rw [wrap_sub]
  case Star => rw [wrap_mul]
  case Slash => exact (divide_eq a b (wrap_tdiv a b)).symm
  case Percent => exact (divide_eq a b (wrap_tmod a b)).symm
  case Shl => exact (shift_eq b (wrap_shl a)).symm
  case Shr => exact (shift_eq b (wrap_shr a)).symm
  case Eq => rw [ofBool_eq_truth]; simp [eq_iff_toInt]
  case Ne => rw [ofBool_eq_truth]; simp [eq_iff_toInt]
  all_goals rw [ofBool_eq_truth]; simp [hlt, hle]

theorem binaryOp_of_compoundOp {tok op} (h : compoundOp tok = some op) :
    ∃ binary_op k, ArithParser.assignmentBinaryOp tok = some binary_op ∧
      binaryOp binary_op = some (op, k) := by
  cases tok <;> simp only [compoundOp, reduceCtorEq, Option.some.injEq] at h <;>
    subst h <;> exact ⟨_, _, rfl, rfl⟩

theorem precedence_eq (tok : ArithToken) :
    ArithParser.precedence tok = (binaryOp tok).map (·.2) := by
  cases tok <;> rfl

end Ish.Epsh
