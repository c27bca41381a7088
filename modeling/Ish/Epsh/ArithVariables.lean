import Ish.Epsh.ArithRefine
import Ish.Epsh.Eval
import Ish.Epsh.Lexer
import Ish.Epsh.Units

/-!
# Variables in arithmetic

A variable that holds an integer constant is read in two ways: `$x` puts its text into
the expression, where the tokenizer reads it, and `x` is a decimal parse of the value.
-/

namespace Ish.Epsh

open Ish.Lib List Numeral
open Process (bind_ok)

/-! ## Integer constants -/

def isArithBlank (c : Char) : Bool := c == ' ' || c == '\t' || c == '\n'

inductive ConstantBase where
  | Decimal
  | Octal
  | Hex (x : Char)
deriving DecidableEq

namespace ConstantBase

def radix : ConstantBase → Nat
  | Decimal => 10
  | Octal => 8
  | Hex _ => 16

def mark : ConstantBase → Text
  | Decimal => []
  | Octal => ['0']
  | Hex x => ['0', x]

def isDigit : ConstantBase → Char → Bool
  | Decimal => Char.isDigit
  | Octal => isOctDigit
  | Hex _ => isHexDigit

/-- The digits that may stand behind the mark. -/
def Accepts : ConstantBase → Text → Prop
  | Decimal, digits => digits ≠ [] ∧ digits.head? ≠ some '0'
  | Octal, _ => True
  | Hex x, digits => (x = 'x' ∨ x = 'X') ∧ digits ≠ []

end ConstantBase

/-- The number that digits stand for. -/
def digitsValue (radix : Nat) (digits : Text) : Nat :=
  digits.foldl (fun n c => n * radix + digitValue c) 0

/-- A constant that the tokenizer accepts, with a sign and blanks around it. -/
structure IntConstant where
  lead : Text
  sign : Text
  base : ConstantBase
  digits : Text
  trail : Text
  lead_blank : lead.all isArithBlank
  trail_blank : trail.all isArithBlank
  sign_eq : sign = [] ∨ sign = ['+'] ∨ sign = ['-']
  digits_of : digits.all base.isDigit
  accepted : base.Accepts digits
  fits : digitsValue base.radix digits < 2 ^ 63

namespace IntConstant

variable (c : IntConstant)

def body : Text := c.base.mark ++ c.digits

def text : Text := c.lead ++ (c.sign ++ (c.body ++ c.trail))

def magnitude : Nat := digitsValue c.base.radix c.digits

/-- The value of the constant. -/
def value : Int := if c.sign = ['-'] then -(c.magnitude : Int) else c.magnitude

/-- Where a decimal parse reads the constant right: it is zero, or it has no blanks
around it and its digits mean the same in base ten. -/
def ReadsAlike : Prop :=
  c.magnitude = 0 ∨
    c.lead = [] ∧ c.trail = [] ∧ (c.base = .Decimal ∨ c.base = .Octal ∧ c.magnitude < 8)

end IntConstant

/-! ## Tokens of a constant -/

theorem takeWhile_append_blank (hp : ∀ c, isArithBlank c = true → p c = false)
    {digits trail : Text} (hdigits : digits.all p) (htrail : trail.all isArithBlank) :
    (digits ++ trail).takeWhile p = digits ∧ (digits ++ trail).dropWhile p = trail := by
  have hall : ∀ c ∈ digits, p c = true := all_eq_true.mp hdigits
  rw [takeWhile_append_of_pos hall, dropWhile_append_of_pos hall]
  cases trail with
  | nil => simp
  | cons b trail =>
    rw [all_cons, Bool.and_eq_true] at htrail
    rw [takeWhile_cons_of_neg (by rw [hp b htrail.1]; decide),
      dropWhile_cons_of_neg (by rw [hp b htrail.1]; decide), append_nil]
    exact ⟨rfl, rfl⟩

variable {c : Char}

theorem eq_of_isArithBlank (h : isArithBlank c = true) : c = ' ' ∨ c = '\t' ∨ c = '\n' := by
  unfold isArithBlank at h
  simpa [or_assoc] using h

theorem isDigit_of_blank (base : ConstantBase) (h : isArithBlank c = true) :
    base.isDigit c = false := by
  cases base <;> rcases eq_of_isArithBlank h with rfl | rfl | rfl <;> rfl

theorem fromStrRadix_eq {digits : Text} (hne : digits ≠ [])
    (hfits : digitsValue radix digits < 2 ^ 63) :
    fromStrRadix digits radix = some (Int64.ofNat (digitsValue radix digits)) := by
  unfold fromStrRadix
  exact if_pos ⟨hne, hfits⟩

theorem lexNumber_decimal {digits trail : Text} (hne : digits ≠ []) (hdigits : digits.all Char.isDigit)
    (htrail : trail.all isArithBlank) (hfits : digitsValue 10 digits < 2 ^ 63)
    (hhead : digits.head? ≠ some '0' ∨ digits = ['0']) :
    lexNumber (digits ++ trail) = .ok (Int64.ofNat (digitsValue 10 digits), trail) := by
  have hblank : ∀ c, isArithBlank c = true → c.isDigit = false := fun _ =>
    isDigit_of_blank .Decimal
  obtain ⟨htake, hdrop⟩ := takeWhile_append_blank hblank hdigits htrail
  unfold lexNumber
  dsimp only
  rw [htake, hdrop, fromStrRadix_eq hne hfits]
  split
  · rename_i x rest heq
    rcases hhead with hhead | rfl
    · obtain ⟨d, ds, rfl⟩ := exists_cons_of_ne_nil hne
      rw [cons_append] at heq
      exact absurd (congrArg some (List.cons.inj heq).1) hhead
    · -- The `0` stands before a blank.
      obtain rfl := (List.cons.inj heq).2
      rw [all_cons, Bool.and_eq_true] at htrail
      have hx : isOctDigit x = false := isDigit_of_blank .Octal htrail.1
      have hmark : ¬ (x = 'x' ∨ x = 'X') := by
        rcases eq_of_isArithBlank htrail.1 with rfl | rfl | rfl <;> decide
      rw [if_neg hmark, if_neg (by rw [hx]; decide)]
  · rfl

theorem isOctDigit_ne_x (h : isOctDigit d = true) : ¬ (d = 'x' ∨ d = 'X') := by
  rintro (rfl | rfl) <;> exact absurd h (by decide)

theorem lexNumber_constant (c : IntConstant) :
    lexNumber (c.body ++ c.trail) = .ok (Int64.ofNat c.magnitude, c.trail) := by
  obtain ⟨lead, sign, base, digits, trail, hlead, htrail, hsign, hdigits, haccepted, hfits⟩ := c
  have hblank := fun c => isDigit_of_blank base (c := c)
  obtain ⟨htake, hdrop⟩ := takeWhile_append_blank hblank hdigits htrail
  unfold IntConstant.body IntConstant.magnitude
  cases base with
  | Decimal => exact lexNumber_decimal haccepted.1 hdigits htrail hfits (.inl haccepted.2)
  | Octal =>
    cases digits with
    | nil =>
      have hzero : ['0'] ≠ [] ∧ ['0'].all Char.isDigit ∧ digitsValue 10 ['0'] < 2 ^ 63 := by
        decide
      exact lexNumber_decimal hzero.1 hzero.2.1 htrail hzero.2.2 (.inr rfl)
    | cons d ds =>
      rw [all_cons, Bool.and_eq_true] at hdigits
      change lexNumber ('0' :: d :: (ds ++ trail)) = _
      unfold lexNumber
      change (if d = 'x' ∨ d = 'X' then _ else if isOctDigit d = true then _ else _) = _
      have hoct : isOctDigit d = true := hdigits.1
      rw [if_neg (isOctDigit_ne_x hoct), if_pos hoct]
      dsimp only
      have htake' : (d :: (ds ++ trail)).takeWhile isOctDigit = d :: ds := htake
      have hdrop' : (d :: (ds ++ trail)).dropWhile isOctDigit = trail := hdrop
      have hread : fromStrRadix (d :: ds) 8 = some (Int64.ofNat (digitsValue 8 (d :: ds))) :=
        fromStrRadix_eq (cons_ne_nil d ds) hfits
      rw [htake', hdrop', hread]
      rfl
  | Hex x =>
    change lexNumber ('0' :: x :: (digits ++ trail)) = _
    unfold lexNumber
    change (if x = 'x' ∨ x = 'X' then _ else _) = _
    have htake' : (digits ++ trail).takeWhile isHexDigit = digits := htake
    have hdrop' : (digits ++ trail).dropWhile isHexDigit = trail := hdrop
    have hread : fromStrRadix digits 16 = some (Int64.ofNat (digitsValue 16 digits)) :=
      fromStrRadix_eq haccepted.2 hfits
    rw [if_pos haccepted.1]
    dsimp only
    rw [htake', hdrop', hread]
    rfl

theorem tokenizeLoop_nil (fuel : Nat) : tokenizeLoop fuel [] = .ok [] := by
  cases fuel <;> rfl

theorem tokenizeLoop_blanks (h : blanks.all isArithBlank) (fuel : Nat)
    (rest : Text) : tokenizeLoop (blanks.length + fuel) (blanks ++ rest) = tokenizeLoop fuel rest := by
  induction blanks with
  | nil => rw [length_nil, Nat.zero_add, nil_append]
  | cons b blanks ih =>
    rw [all_cons, Bool.and_eq_true] at h
    rw [length_cons, Nat.add_right_comm, cons_append, tokenizeLoop,
      if_pos (eq_of_isArithBlank h.1)]
    exact ih h.2

theorem tokenizeLoop_trail (h : trail.all isArithBlank)
    (hfuel : trail.length ≤ fuel) : tokenizeLoop fuel trail = .ok [] := by
  have hloop := tokenizeLoop_blanks h (fuel - trail.length) []
  rw [Nat.add_sub_cancel' hfuel, append_nil, tokenizeLoop_nil] at hloop
  exact hloop

theorem startsDigit_body (c : IntConstant) : ∃ d rest, c.body = d :: rest ∧ d.isDigit = true := by
  obtain ⟨lead, sign, base, digits, trail, hlead, htrail, hsign, hdigits, haccepted, hfits⟩ := c
  cases base with
  | Decimal =>
    obtain ⟨d, ds, rfl⟩ := exists_cons_of_ne_nil haccepted.1
    rw [all_cons, Bool.and_eq_true] at hdigits
    exact ⟨d, ds, rfl, hdigits.1⟩
  | Octal => exact ⟨'0', digits, rfl, by decide⟩
  | Hex x => exact ⟨'0', x :: digits, rfl, by decide⟩

theorem not_blank_of_isDigit (h : d.isDigit = true) : ¬ (d = ' ' ∨ d = '\t' ∨ d = '\n') := by
  rintro (rfl | rfl | rfl) <;> exact absurd h (by decide)

/-- The number of a constant, and the blanks behind it. -/
theorem tokenizeLoop_body (c : IntConstant) (hfuel : c.trail.length < fuel) :
    tokenizeLoop fuel (c.body ++ c.trail) = .ok [.Num (Int64.ofNat c.magnitude)] := by
  obtain ⟨fuel, rfl⟩ := Nat.exists_eq_add_of_lt hfuel
  obtain ⟨d, rest, hbody, hd⟩ := startsDigit_body c
  have hnumber := lexNumber_constant c
  rw [hbody] at hnumber ⊢
  rw [cons_append] at hnumber ⊢
  rw [tokenizeLoop, if_neg (not_blank_of_isDigit hd), if_pos hd, hnumber]
  have htrail := tokenizeLoop_trail c.trail_blank (Nat.le_add_right c.trail.length fuel)
  change (tokenizeLoop (c.trail.length + fuel) c.trail >>= fun tokens =>
    .ok (.Num (Int64.ofNat c.magnitude) :: tokens)) = _
  rw [htrail]
  rfl

/-- The token of a sign. -/
def IntConstant.signTokens (c : IntConstant) : List ArithToken :=
  if c.sign = ['+'] then [.Plus] else if c.sign = ['-'] then [.Minus] else []

theorem lexOperator_sign (hd : d.isDigit = true) (rest : Text) :
    lexOperator ('+' :: d :: rest) = some (.Plus, d :: rest) ∧
      lexOperator ('-' :: d :: rest) = some (.Minus, d :: rest) := by
  have hne : ∀ rest', d :: rest = '=' :: rest' → False := by
    rintro rest' heq
    rw [(List.cons.inj heq).1] at hd
    exact absurd hd (by decide)
  constructor
  · rw [lexOperator]
    exact hne
  · rw [lexOperator]
    exact hne

theorem tokenizeLoop_sign (hd : d.isDigit = true) {rest : Text}
    {tokens : List ArithToken} (h : tokenizeLoop fuel (d :: rest) = .ok tokens) :
    tokenizeLoop (fuel + 1) ('+' :: d :: rest) = .ok (.Plus :: tokens) ∧
      tokenizeLoop (fuel + 1) ('-' :: d :: rest) = .ok (.Minus :: tokens) := by
  obtain ⟨hplus, hminus⟩ := lexOperator_sign hd rest
  constructor
  · rw [tokenizeLoop, if_neg (by decide), if_neg (by decide), if_neg (by decide), hplus]
    dsimp only
    rw [h]
    rfl
  · rw [tokenizeLoop, if_neg (by decide), if_neg (by decide), if_neg (by decide), hminus]
    dsimp only
    rw [h]
    rfl

theorem tokenize_constant (c : IntConstant) :
    tokenize c.text = .ok (c.signTokens ++ [.Num (Int64.ofNat c.magnitude)]) := by
  obtain ⟨d, rest, hbody, hd⟩ := startsDigit_body c
  have hlength : c.text.length = c.lead.length + (c.sign ++ (c.body ++ c.trail)).length := by
    rw [IntConstant.text, length_append]
  have hfuel : c.trail.length < (c.body ++ c.trail).length := by
    rw [length_append, hbody, length_cons]
    omega
  have hnumber := tokenizeLoop_body c hfuel
  rw [tokenize, hlength, IntConstant.text, tokenizeLoop_blanks c.lead_blank, IntConstant.signTokens]
  rw [hbody, cons_append] at hnumber ⊢
  have hsigned := tokenizeLoop_sign hd hnumber
  rcases c.sign_eq with hsign | hsign | hsign
  · rw [hsign, if_neg (by decide), if_neg (by decide)]
    exact hnumber
  · rw [hsign, if_pos rfl]
    exact hsigned.1
  · rw [hsign, if_neg (by decide), if_pos rfl]
    exact hsigned.2

/-! ## The value in an expression -/

theorem derives_of_unary (h : Derives .unary tokens e) :
    Derives .assign tokens e :=
  .toAssign (.toTernary (.toOr (.toAnd (.toBin (.toBin (.toBin (.toBin (.toBin (.toBin (.toBin
    (.toBin (.unaryToBin h))))))))))))

theorem toInt_magnitude (c : IntConstant) : (Int64.ofNat c.magnitude).toInt = c.magnitude :=
  Int64.toInt_ofNat_of_lt c.fits

theorem evalArith_constant (c : IntConstant) (vars : Variables) (exit_status : Int)
    (shell_pid : Nat) :
    ∃ v : Int64, v.toInt = c.value ∧ evalArith c.text vars exit_status shell_pid = (.ok v, vars) := by
  rw [evalArith, tokenize_constant, IntConstant.signTokens]
  dsimp only
  have hnum : Derives .unary [.Num (Int64.ofNat c.magnitude)] (.num (Int64.ofNat c.magnitude)) :=
    .toUnary .num
  have hmagnitude := toInt_magnitude c
  rcases c.sign_eq with hsign | hsign | hsign
  · refine ⟨Int64.ofNat c.magnitude, ?_, ?_⟩
    · rw [hmagnitude, IntConstant.value, hsign, if_neg (by decide)]
    · rw [hsign, if_neg (by decide), if_neg (by decide), nil_append,
        evalArithTokens_eq_run (derives_of_unary hnum)]
      rfl
  · refine ⟨Int64.ofNat c.magnitude, ?_, ?_⟩
    · rw [hmagnitude, IntConstant.value, hsign, if_neg (by decide)]
    · have hplus : Derives .unary [.Plus, .Num (Int64.ofNat c.magnitude)]
          (.unary .plus (.num (Int64.ofNat c.magnitude))) := .unary rfl hnum
      rw [hsign, if_pos rfl, singleton_append, evalArithTokens_eq_run (derives_of_unary hplus)]
      rfl
  · refine ⟨-Int64.ofNat c.magnitude, ?_, ?_⟩
    · rw [IntConstant.value, hsign, if_pos rfl]
      exact Int64.toInt_neg_ofNat_of_le (Nat.le_of_lt c.fits)
    · have hminus : Derives .unary [.Minus, .Num (Int64.ofNat c.magnitude)]
          (.unary .minus (.num (Int64.ofNat c.magnitude))) := .unary rfl hnum
      rw [hsign, if_neg (by decide), if_pos rfl, singleton_append,
        evalArithTokens_eq_run (derives_of_unary hminus), ← UnOp.minus_apply]
      rfl

/-! ## The text of a constant -/

theorem toNat_lt_of_le {c d : Char} (h : c ≤ d) : c.toNat ≤ d.toNat :=
  UInt32.le_iff_toNat_le.mp h

theorem toNat_lt_of_isDigit (base : ConstantBase) (h : base.isDigit c = true) : c.toNat < 0x80 := by
  have hdigit : ∀ {c : Char}, c.isDigit = true → c.toNat < 0x80 := by
    intro c hc
    unfold Char.isDigit at hc
    rw [Bool.and_eq_true, decide_eq_true_iff, decide_eq_true_iff] at hc
    exact Nat.lt_of_le_of_lt (UInt32.le_iff_toNat_le.mp hc.2) (by decide)
  have hle : ∀ {c d : Char}, c ≤ d → d.toNat < 0x80 → c.toNat < 0x80 := fun hcd hd =>
    Nat.lt_of_le_of_lt (toNat_lt_of_le hcd) hd
  cases base with
  | Decimal => exact hdigit h
  | Octal =>
    have hoct : isOctDigit c = true := h
    unfold isOctDigit at hoct
    rw [Bool.and_eq_true, decide_eq_true_iff, decide_eq_true_iff] at hoct
    exact hle hoct.2 (by decide)
  | Hex x =>
    have hhex : isHexDigit c = true := h
    unfold isHexDigit at hhex
    simp only [Bool.or_eq_true, Bool.and_eq_true, decide_eq_true_iff] at hhex
    rcases hhex with (hd | hd) | hd
    · exact hdigit hd
    · exact hle hd.2 (by decide)
    · exact hle hd.2 (by decide)

theorem isAscii_of_blanks {blanks : Text} (h : blanks.all isArithBlank) :
    Ascii.isAscii blanks = true := by
  rw [Ascii.isAscii, all_eq_true]
  intro c hc
  rcases eq_of_isArithBlank (all_eq_true.mp h c hc) with rfl | rfl | rfl <;> decide

theorem isAscii_append {a b : Text} (ha : Ascii.isAscii a = true) (hb : Ascii.isAscii b = true) :
    Ascii.isAscii (a ++ b) = true := by
  unfold Ascii.isAscii at *
  rw [all_append, ha, hb]
  rfl

theorem isAscii_text (c : IntConstant) : Ascii.isAscii c.text = true := by
  have hsign : Ascii.isAscii c.sign = true := by
    rcases c.sign_eq with h | h | h <;> rw [h] <;> decide
  have hdigits : Ascii.isAscii c.digits = true := by
    rw [Ascii.isAscii, all_eq_true]
    intro d hd
    exact decide_eq_true (toNat_lt_of_isDigit c.base (all_eq_true.mp c.digits_of d hd))
  have hmark : Ascii.isAscii c.base.mark = true := by
    have haccepted := c.accepted
    cases hbase : c.base with
    | Decimal => rfl
    | Octal => decide
    | Hex x =>
      rw [hbase] at haccepted
      rcases haccepted.1 with rfl | rfl <;> decide
  exact isAscii_append (isAscii_of_blanks c.lead_blank) (isAscii_append hsign
    (isAscii_append (isAscii_append hmark hdigits) (isAscii_of_blanks c.trail_blank)))

theorem bytesToStr_ofText {text : Text} (h : Ascii.isAscii text = true) :
    bytesToStr (ShellBytes.ofText text) = text :=
  bytesToStr_encode h

/-! ## The value of a variable -/

variable {name : Text}

theorem startsName_ne (hname : isName name = true) :
    ∃ c rest, name = c :: rest ∧ isNameStart c = true ∧ rest.all isNameChar = true := by
  cases name with
  | nil => cases hname
  | cons c rest =>
    unfold isName at hname
    rw [Bool.and_eq_true] at hname
    exact ⟨c, rest, rfl, hname⟩

theorem not_isDigit_of_isNameStart (h : isNameStart c = true) : c.isDigit = false := by
  unfold isNameStart at h
  rw [Bool.or_eq_true, beq_iff_eq] at h
  rcases h with rfl | h
  · decide
  · cases hd : c.isDigit with
    | false => rfl
    | true =>
      unfold Char.isAlpha Char.isUpper Char.isLower at h
      simp only [Char.isDigit, Bool.or_eq_true, Bool.and_eq_true, decide_eq_true_iff,
        ge_iff_le, UInt32.le_iff_toNat_le] at h hd
      have hnine : '9'.val.toNat = 57 := rfl
      have hupper : 'A'.val.toNat = 65 := rfl
      have hlower : 'a'.val.toNat = 97 := rfl
      omega

theorem not_blank_of_isNameStart (h : isNameStart c = true) :
    ¬ (c = ' ' ∨ c = '\t' ∨ c = '\n') := by
  rintro (rfl | rfl | rfl) <;> exact absurd h (by decide)

theorem isNameChar_of_isNameStart (h : isNameStart c = true) : isNameChar c = true := by
  unfold isNameStart at h
  unfold isNameChar Char.isAlphanum
  rw [Bool.or_eq_true] at h ⊢
  rcases h with h | h
  · exact .inl h
  · rw [h]
    exact .inr rfl

theorem tokenize_name (hname : isName name = true) : tokenize name = .ok [.Var name] := by
  obtain ⟨c, rest, rfl, hstart, hrest⟩ := startsName_ne hname
  have hall : ∀ d ∈ c :: rest, isNameChar d = true := by
    intro d hd
    rcases mem_cons.mp hd with rfl | hd
    · exact isNameChar_of_isNameStart hstart
    · exact all_eq_true.mp hrest d hd
  rw [tokenize, length_cons, tokenizeLoop, if_neg (not_blank_of_isNameStart hstart),
    if_neg (by rw [not_isDigit_of_isNameStart hstart]; decide), if_pos hstart,
    takeWhile_eq_self_iff.mpr hall, dropWhile_eq_nil_iff.mpr hall, tokenizeLoop_nil]
  rfl

theorem parseDigits_name (h : isNameStart c = true) (rest : Text) :
    parseDigits (c :: rest) = none := by
  unfold parseDigits
  rw [if_neg]
  rintro ⟨-, hall⟩
  rw [all_cons, not_isDigit_of_isNameStart h] at hall
  cases hall

theorem getSpecial_name (hname : isName name = true) (vars : Variables)
    (exit_status : Int) (shell_pid : Nat) (flags : Text) (last : Option Nat) :
    vars.getSpecial name exit_status shell_pid flags last = vars.getShell name := by
  obtain ⟨c, rest, rfl, hstart, hrest⟩ := startsName_ne hname
  have hne : ∀ d, isNameStart d = false → c :: rest ≠ [d] := by
    rintro d hd heq
    rw [(List.cons.inj heq).1, hd] at hstart
    cases hstart
  have hnumber : Variables.parameterNumber (c :: rest) = none := by
    unfold Variables.parameterNumber parseU64 stripPlus
    split
    · rename_i heq
      rw [(List.cons.inj heq).1] at hstart
      exact absurd hstart (by decide)
    · rw [parseDigits_name hstart]
      rfl
  unfold Variables.getSpecial
  rw [if_neg (hne _ (by decide)), if_neg (hne _ (by decide)), if_neg (hne _ (by decide)),
    if_neg (hne _ (by decide)), if_neg (hne _ (by decide)), if_neg (hne _ (by decide)),
    if_neg (not_or.mpr ⟨hne _ (by decide), hne _ (by decide)⟩), hnumber]

theorem varValue_eq (hname : isName name = true) (vars : Variables)
    (exit_status : Int) (shell_pid : Nat) :
    ArithParser.varValue vars exit_status shell_pid name =
      ((vars.getInt name).orElse fun _ =>
        (vars.getShell name).bind parseI64).getD 0 := by
  unfold ArithParser.varValue
  cases hint : vars.getInt name with
  | some n => rfl
  | none =>
    rw [getSpecial_name hname]
    unfold Variables.getShell Variables.get
    cases hvalue : vars.getBytes name with
    | none => rfl
    | some bytes => rfl

theorem getInt_of_getBytes {vars : Variables}
    (h : vars.getBytes name = some bytes) : vars.getInt name = intCache (some bytes) := by
  unfold Variables.getBytes at h
  unfold Variables.getInt
  cases hvar : vars.binding name with
  | none =>
    rw [hvar] at h
    cases h
  | some var =>
    rw [hvar, Option.bind_some] at h
    rw [Option.bind_some, var.cached, h]

theorem varValue_text (hname : isName name = true) {vars} {text : Text}
    (hascii : Ascii.isAscii text = true)
    (h : vars.getBytes name = some (ShellBytes.ofText text)) (exit_status : Int) (shell_pid : Nat) :
    ArithParser.varValue vars exit_status shell_pid name = (parseI64 text).getD 0 := by
  have hshell : vars.getShell name = some text := by
    rw [Variables.getShell, h, Option.map_some, bytesToStr_ofText hascii]
  rw [varValue_eq hname, getInt_of_getBytes h, hshell, intCache, Option.bind_some,
    asUtf8Str_ofText, Option.bind_some]
  cases parseI64 text <;> rfl

theorem varValue_empty (hname : isName name = true) {vars : Variables}
    (h : vars.getBytes name = none ∨ vars.getBytes name = some []) (exit_status : Int)
    (shell_pid : Nat) : ArithParser.varValue vars exit_status shell_pid name = 0 := by
  rcases h with h | h
  · have hint : vars.getInt name = none := by
      unfold Variables.getBytes at h
      unfold Variables.getInt
      cases hvar : vars.binding name with
      | none => rfl
      | some var =>
        rw [hvar, Option.bind_some] at h
        rw [Option.bind_some, var.cached, h]
        rfl
    rw [varValue_eq hname, hint, Variables.getShell, h]
    rfl
  · exact @varValue_text name hname vars [] rfl h exit_status shell_pid

theorem evalArith_name (hname : isName name = true) (vars : Variables)
    (exit_status : Int) (shell_pid : Nat) :
    evalArith name vars exit_status shell_pid =
      (.ok (ArithParser.varValue vars exit_status shell_pid name), vars) := by
  have hvar : Derives .assign [.Var name] (.var name) := derives_of_unary (.toUnary .var)
  rw [evalArith, tokenize_name hname]
  dsimp only
  rw [evalArithTokens_eq_run hvar]
  rfl

/-! ## Decimal parses of constants -/

theorem digitValue_of_isDigit (h : c.isDigit = true) : digitValue c = c.toNat - '0'.toNat := by
  unfold digitValue
  rw [if_pos h]

theorem digitsValue_append (radix : Nat) (digits : Text) (d : Char) :
    digitsValue radix (digits ++ [d]) = digitsValue radix digits * radix + digitValue d := by
  unfold digitsValue
  rw [foldl_append, foldl_cons, foldl_nil]

/-- The standard library's reading of decimal digits. -/
theorem ofDigitChars_eq {digits : Text} (h : digits.all Char.isDigit) :
    Nat.ofDigitChars 10 digits 0 = digitsValue 10 digits := by
  induction digits using List.reverseRecOn with
  | nil => rfl
  | append_singleton digits d ih =>
    rw [all_append, Bool.and_eq_true, all_cons, Bool.and_eq_true] at h
    rw [Nat.ofDigitChars_append, ih h.1, digitsValue_append, digitValue_of_isDigit h.2.1,
      Nat.ofDigitChars_cons, Nat.ofDigitChars_nil, Nat.mul_comm]

theorem digitValue_of_isOctDigit {d : Char} (h : isOctDigit d = true) :
    d.isDigit = true ∧ digitValue d < 8 := by
  unfold isOctDigit at h
  rw [Bool.and_eq_true, decide_eq_true_iff, decide_eq_true_iff] at h
  have hlow := toNat_lt_of_le h.1
  have hhigh := toNat_lt_of_le h.2
  have hzero : '0'.toNat = 48 := rfl
  have hseven : '7'.toNat = 55 := rfl
  have hdigit : d.isDigit = true := by
    unfold Char.isDigit
    rw [Bool.and_eq_true, decide_eq_true_iff, decide_eq_true_iff]
    refine ⟨UInt32.le_iff_toNat_le.mpr hlow, UInt32.le_iff_toNat_le.mpr ?_⟩
    exact Nat.le_trans hhigh (by decide)
  rw [digitValue_of_isDigit hdigit]
  exact ⟨hdigit, by omega⟩

theorem digitsValue_octal (h : digits.all isOctDigit) :
    digitsValue 8 digits ≤ digitsValue 10 digits ∧
      (digitsValue 10 digits = digitsValue 8 digits ↔ digitsValue 8 digits < 8) := by
  induction digits using List.reverseRecOn with
  | nil => decide
  | append_singleton digits d ih =>
    rw [all_append, Bool.and_eq_true, all_cons, Bool.and_eq_true] at h
    obtain ⟨hle, hiff⟩ := ih h.1
    have hd := (digitValue_of_isOctDigit h.2.1).2
    rw [digitsValue_append, digitsValue_append]
    omega

theorem parseDigits_of_not_digit {digits : Text} (hmem : c ∈ digits)
    (hc : c.isDigit = false) : parseDigits digits = none := by
  unfold parseDigits
  rw [if_neg]
  rintro ⟨-, hall⟩
  have htrue := all_eq_true.mp hall c hmem
  rw [hc] at htrue
  cases htrue

/-- A decimal parse accepts nothing that holds another character than a sign in front. -/
theorem parseI64_of_not_digit {text : Text} (hmem : c ∈ text) (hc : c.isDigit = false)
    (hplus : c ≠ '+') (hminus : c ≠ '-') : parseI64 text = none := by
  have hint : parseInt text = none := by
    unfold parseInt
    split
    · rename_i digits
      rw [parseDigits_of_not_digit ((mem_cons.mp hmem).resolve_left hminus) hc]
      rfl
    · unfold stripPlus
      split
      · rw [parseDigits_of_not_digit ((mem_cons.mp hmem).resolve_left hplus) hc]
        rfl
      · rw [parseDigits_of_not_digit hmem hc]
        rfl
  rw [parseI64, hint]
  rfl

theorem parseInt_signed {sign digits : Text}
    (hsign : sign = [] ∨ sign = ['+'] ∨ sign = ['-']) (hne : digits ≠ [])
    (hdigits : digits.all Char.isDigit) :
    parseInt (sign ++ digits) =
      some (if sign = ['-'] then -(digitsValue 10 digits : Int) else digitsValue 10 digits) := by
  have hparse : parseDigits digits = some (digitsValue 10 digits) := by
    rw [parseDigits, if_pos ⟨hne, hdigits⟩, ofDigitChars_eq hdigits]
  rcases hsign with rfl | rfl | rfl
  · obtain ⟨d, ds, rfl⟩ := exists_cons_of_ne_nil hne
    rw [all_cons, Bool.and_eq_true] at hdigits
    have hfirst : ∀ c : Char, c.isDigit = false → ∀ rest, d :: ds ≠ c :: rest := by
      rintro c hc rest heq
      have htrue := hdigits.1
      rw [(List.cons.inj heq).1, hc] at htrue
      cases htrue
    rw [nil_append, if_neg (by decide), parseInt.eq_def]
    split
    · rename_i rest heq
      exact absurd heq (hfirst '-' (by decide) rest)
    · rw [stripPlus.eq_def]
      split
      · rename_i rest heq
        exact absurd heq (hfirst '+' (by decide) rest)
      · rw [hparse]
        rfl
  · rw [singleton_append, if_neg (by decide)]
    change (parseDigits digits).map Int.ofNat = _
    rw [hparse]
    rfl
  · rw [singleton_append, if_pos rfl]
    change ((parseDigits digits).map fun n => -Int.ofNat n) = _
    rw [hparse]
    rfl

theorem value_eq_zero (c : IntConstant) : 0 = c.value ↔ c.magnitude = 0 := by
  unfold IntConstant.value
  split <;> omega

theorem parseI64_no_numeral {c : IntConstant} (hmem : b ∈ c.text)
    (hdigit : b.isDigit = false) (hplus : b ≠ '+') (hminus : b ≠ '-') :
    ((parseI64 c.text).getD 0).toInt = c.value ↔ c.magnitude = 0 := by
  rw [parseI64_of_not_digit hmem hdigit hplus hminus, ← value_eq_zero]
  rfl

theorem parseI64_blank {c : IntConstant} (h : c.lead ≠ [] ∨ c.trail ≠ []) :
    ((parseI64 c.text).getD 0).toInt = c.value ↔ c.magnitude = 0 := by
  have hblank : ∃ b ∈ c.text, isArithBlank b = true := by
    rcases h with h | h
    · obtain ⟨b, blanks, heq⟩ := exists_cons_of_ne_nil h
      refine ⟨b, ?_, all_eq_true.mp c.lead_blank b (heq ▸ mem_cons_self)⟩
      exact mem_append_left _ (heq ▸ mem_cons_self)
    · obtain ⟨b, blanks, heq⟩ := exists_cons_of_ne_nil h
      refine ⟨b, ?_, all_eq_true.mp c.trail_blank b (heq ▸ mem_cons_self)⟩
      exact mem_append_right _ (mem_append_right _ (mem_append_right _
        (heq ▸ mem_cons_self)))
  obtain ⟨b, hmem, hb⟩ := hblank
  have hdigit : b.isDigit = false := isDigit_of_blank .Decimal hb
  refine parseI64_no_numeral hmem hdigit ?_ ?_
  · rintro rfl
    exact absurd hb (by decide)
  · rintro rfl
    exact absurd hb (by decide)

/-- The parse of digits without blanks gives `m`, if they mean that in base ten. -/
theorem parseI64_digits {sign digits : Text}
    (hsign : sign = [] ∨ sign = ['+'] ∨ sign = ['-']) (hne : digits ≠ [])
    (hdigits : digits.all Char.isDigit) {m : Nat} (hm : m < 2 ^ 63)
    (hzero : m = 0 → digitsValue 10 digits = 0) :
    ((parseI64 (sign ++ digits)).getD 0).toInt =
        (if sign = ['-'] then -(m : Int) else m) ↔
      digitsValue 10 digits = m := by
  rw [parseI64, parseInt_signed hsign hne hdigits, Option.bind_some]
  generalize hv : (if sign = ['-'] then -(digitsValue 10 digits : Int) else
    digitsValue 10 digits) = v
  by_cases hrange : -(2 ^ 63) ≤ v ∧ v < 2 ^ 63
  · rw [if_pos hrange, Option.getD_some, Int64.toInt_ofInt_of_le hrange.1 hrange.2, ← hv]
    split <;> omega
  · rw [if_neg hrange, Option.getD_none]
    have hlarge : digitsValue 10 digits ≠ m := by
      intro heq
      apply hrange
      rw [← hv, heq]
      split <;> omega
    have hpos : m ≠ 0 := fun h => hlarge ((hzero h).trans h.symm)
    have hne : (0 : Int) ≠ if sign = ['-'] then -(m : Int) else m := by
      split <;> omega
    exact iff_of_false hne hlarge

/-- **A decimal parse reads a constant right** exactly if it is zero, or has no blanks and
its digits mean the same in base ten. -/
theorem parseI64_constant (c : IntConstant) :
    ((parseI64 c.text).getD 0).toInt = c.value ↔ c.ReadsAlike := by
  unfold IntConstant.ReadsAlike
  by_cases hblank : c.lead ≠ [] ∨ c.trail ≠ []
  · rw [parseI64_blank hblank]
    constructor
    · exact .inl
    · rintro (h | ⟨hlead, htrail, -⟩)
      · exact h
      · exact absurd hblank (by simp [hlead, htrail])
  · rw [not_or, not_not, not_not] at hblank
    have htext : c.text = c.sign ++ (c.base.mark ++ c.digits) := by
      rw [IntConstant.text, hblank.1, hblank.2, nil_append, append_nil]
      rfl
    have hdigits := c.digits_of
    have haccepted := c.accepted
    have hfits := c.fits
    unfold IntConstant.value IntConstant.magnitude
    cases hbase : c.base with
    | Decimal =>
      rw [hbase] at hdigits haccepted hfits htext
      rw [htext]
      have hread := parseI64_digits c.sign_eq haccepted.1 hdigits hfits id
      change _ ↔ digitsValue 10 c.digits = digitsValue 10 c.digits at hread
      exact iff_of_true (hread.mpr rfl) (.inr ⟨hblank.1, hblank.2, .inl rfl⟩)
    | Octal =>
      rw [hbase] at hdigits hfits htext
      rw [htext]
      have hoctal := digitsValue_octal hdigits
      have hall : ('0' :: c.digits).all Char.isDigit := by
        rw [all_cons, Bool.and_eq_true]
        refine ⟨by decide, all_eq_true.mpr fun d hd => ?_⟩
        exact (digitValue_of_isOctDigit (all_eq_true.mp hdigits d hd)).1
      have hlead : digitsValue 10 ('0' :: c.digits) = digitsValue 10 c.digits := rfl
      have hread := parseI64_digits c.sign_eq (cons_ne_nil '0' c.digits) hall hfits
        (by
          intro hzero
          rw [hlead, hoctal.2.mpr (by change digitsValue 8 c.digits = 0 at hzero; omega)]
          exact hzero)
      refine hread.trans ?_
      rw [hlead]
      change _ = digitsValue 8 c.digits ↔ digitsValue 8 c.digits = 0 ∨ _ ∧ _ ∧
        (_ ∨ _ ∧ digitsValue 8 c.digits < 8)
      rw [hoctal.2]
      constructor
      · exact fun h => .inr ⟨hblank.1, hblank.2, .inr ⟨rfl, h⟩⟩
      · rintro (h | ⟨-, -, h | h⟩)
        · omega
        · cases h
        · exact h.2
    | Hex x =>
      rw [hbase] at haccepted htext
      have hmem : x ∈ c.text := by
        rw [htext]
        exact mem_append_right _ (mem_append_left _ (mem_cons_of_mem _
          mem_cons_self))
      have hx : x.isDigit = false ∧ x ≠ '+' ∧ x ≠ '-' := by
        rcases haccepted.1 with rfl | rfl <;> decide
      have hread := parseI64_no_numeral hmem hx.1 hx.2.1 hx.2.2
      unfold IntConstant.value IntConstant.magnitude at hread
      rw [hbase] at hread
      rw [hread]
      simp

/-! ## Expansion -/

section

variable {W : Type} (out : Outside W) (subst : Command → ShellM W Text) (m : Machine W)

/-- `$((inner))` is `value` in every context, and leaves everything as it is. -/
def GivesValue (inner : List WordPart) (value : Int) : Prop :=
  ∀ n quoted word escape,
    expandWordPart out subst (n + 6) (.Arith inner) quoted word escape m =
      some (.ok [⟨(toString value).toList, !quoted, false⟩], m)

theorem arithmetic_run
    (h : evalArith text m.shell.vars m.shell.exit_status.code m.shell.pid = (.ok v, m.shell.vars)) :
    arithmetic text m = some (.ok (.ok v), m) := by
  have hget : getShell m = some (.ok m.shell, m) := rfl
  unfold arithmetic
  rw [bind_ok hget]
  have hset : modifyVars (fun vars => (evalArith text vars m.shell.exit_status.code m.shell.pid).2) m =
      some (.ok (), m) := by
    have hvars : (evalArith text m.shell.vars m.shell.exit_status.code m.shell.pid).2 =
        m.shell.vars := by rw [h]
    change some (Ending.ok (), { m with shell := { m.shell with vars := Prod.snd _ } }) = _
    rw [hvars]
  rw [bind_ok hset, Process.pure_run, h]

theorem expand_arith {n inner fragments v}
    (hinner : expandWordPartsInner out subst n inner true false false m = some (.ok fragments, m))
    (h : evalArith (joinValues fragments) m.shell.vars m.shell.exit_status.code m.shell.pid =
      (.ok v, m.shell.vars)) (quoted word escape : Bool) :
    expandWordPart out subst (n + 1) (.Arith inner) quoted word escape m =
      some (.ok [⟨(toString v.toInt).toList, !quoted, false⟩], m) := by
  rw [expandWordPart, bind_ok hinner, bind_ok (arithmetic_run m h)]
  rfl

theorem expand_single {n part fragments}
    (h : expandWordPart out subst (n + 1) part quoted word escape m = some (.ok fragments, m)) :
    expandWordPartsInner out subst (n + 2) [part] quoted word escape m =
      some (.ok fragments, m) := by
  rw [expandWordPartsInner, bind_ok h]
  have hnil : expandWordPartsInner out subst (n + 1) [] quoted word escape m =
      some (.ok [], m) := rfl
  rw [bind_ok hnil, Process.pure_run, append_nil]

theorem isAscii_name (hname : isName name = true) : Ascii.isAscii name = true := by
  obtain ⟨c, rest, rfl, hstart, hrest⟩ := startsName_ne hname
  rw [Ascii.isAscii, all_eq_true]
  intro d hd
  have hchar : isNameChar d = true := by
    rcases mem_cons.mp hd with rfl | hd
    · exact isNameChar_of_isNameStart hstart
    · exact all_eq_true.mp hrest d hd
  rw [isNameChar, Bool.or_eq_true, beq_iff_eq] at hchar
  rw [decide_eq_true_iff]
  rcases hchar with rfl | hchar
  · decide
  · exact Ascii.toNat_of_isAlphanum hchar

theorem parseInt_toString (n : Int) : parseInt (toString n).toList = some n := by
  cases n with
  | ofNat k =>
    have htext : (toString (Int.ofNat k)).toList = Nat.toDigits 10 k := by
      change (Nat.repr k).toList = _
      simp
    rw [htext, parseInt_toDigits]
  | negSucc k =>
    have htext : (toString (Int.negSucc k)).toList = '-' :: Nat.toDigits 10 (k + 1) := by
      change ("-" ++ Nat.repr (k + 1)).toList = _
      simp
    rw [htext]
    change ((parseDigits (Nat.toDigits 10 (k + 1))).map fun n => -Int.ofNat n) = _
    rw [parseDigits_toDigits]
    rfl

theorem toString_injective {a b : Int} (h : (toString a).toList = (toString b).toList) : a = b := by
  have hparse := congrArg parseInt h
  rw [parseInt_toString, parseInt_toString] at hparse
  exact Option.some.inj hparse

/-- `$((x))` -/
theorem givesValue_name (hname : isName name = true) (value : Int) :
    GivesValue out subst m [.Literal (ShellBytes.ofText name)] value ↔
      (ArithParser.varValue m.shell.vars m.shell.exit_status.code m.shell.pid name).toInt = value := by
  have hliteral : ∀ n, expandWordPart out subst (n + 1) (.Literal (ShellBytes.ofText name)) true
      false false m = some (.ok [⟨name, false, false⟩], m) := by
    intro n
    rw [expandWordPart, bytesToStr_ofText (isAscii_name hname)]
    rfl
  have hrun := fun n => expand_arith out subst m (expand_single out subst m (hliteral n))
    (by
      rw [joinValues, flatMap_singleton]
      exact evalArith_name hname _ _ _)
  constructor
  · intro h
    have htwo := (hrun 3 false false false).symm.trans (h 0 false false false)
    have hfragments := Ending.ok.inj (congrArg Prod.fst (Option.some.inj htwo))
    exact toString_injective (congrArg ExpandedWord.value (List.cons.inj hfragments).1)
  · rintro rfl n quoted word escape
    exact hrun (n + 3) quoted word escape

theorem isSpecialParam_name (hname : isName name = true) : isSpecialParam name = false := by
  obtain ⟨c, rest, rfl, hstart, -⟩ := startsName_ne hname
  cases rest with
  | cons d rest => rfl
  | nil =>
    have hsign : ∀ sign, isNameStart sign = false → (c == sign) = false := by
      intro sign hsign
      rw [beq_eq_false_iff_ne]
      rintro rfl
      rw [hsign] at hstart
      cases hstart
    change (['@', '*', '#', '?', '-', '$', '!', '0'].contains c || c.isDigit) = false
    rw [not_isDigit_of_isNameStart hstart, Bool.or_false]
    simp only [contains_cons, contains_nil, Bool.or_false]
    rw [hsign _ (by decide), hsign _ (by decide), hsign _ (by decide), hsign _ (by decide),
      hsign _ (by decide), hsign _ (by decide), hsign _ (by decide), hsign _ (by decide)]
    rfl

/-- `$(($x))` -/
theorem givesValue_param (hname : isName name = true) (c : IntConstant) (span : Span)
    (h : m.shell.vars.getBytes name = some (ShellBytes.ofText c.text)) :
    GivesValue out subst m [.Param ⟨name, .Normal, span⟩] c.value := by
  obtain ⟨v, hv, heval⟩ := evalArith_constant c m.shell.vars m.shell.exit_status.code m.shell.pid
  have hne : ∀ d, isNameStart d = false → name ≠ [d] := by
    obtain ⟨first, rest, rfl, hstart, -⟩ := startsName_ne hname
    rintro d hd heq
    rw [(List.cons.inj heq).1, hd] at hstart
    cases hstart
  have hspecial := isSpecialParam_name hname
  have hraw : rawValue ⟨name, .Normal, span⟩ m = some (.ok (some c.text), m) := by
    have hget : getShell m = some (.ok m.shell, m) := rfl
    have hshell : m.shell.vars.getShell name = some c.text := by
      rw [Variables.getShell, h, Option.map_some, bytesToStr_ofText (isAscii_text c)]
    unfold rawValue
    rw [bind_ok hget]
    dsimp only
    rw [if_neg (not_or.mpr ⟨hne _ (by decide), hne _ (by decide)⟩), hspecial, hshell]
    rfl
  have hparam : ∀ n, expandWordPart out subst (n + 2) (.Param ⟨name, .Normal, span⟩) true
      false false m = some (.ok [⟨c.text, false, false⟩], m) := by
    intro n
    have hget : getShell m = some (.ok m.shell, m) := rfl
    rw [expandWordPart, bind_ok hget]
    dsimp only
    rw [if_neg (fun heq => hne '@' (by decide) heq.1), if_neg (fun heq => hne '*' (by decide) heq.1),
      if_neg (hne '*' (by decide)), expandParamToFragments, bind_ok hraw]
    rfl
  intro n quoted word escape
  rw [← hv]
  refine expand_arith out subst m (expand_single out subst m (hparam (n + 2))) ?_ quoted word escape
  rw [joinValues, flatMap_singleton]
  exact heval

/-- **A variable in arithmetic**: unset or empty it counts zero, and one that holds a
constant means the same with and without `$` exactly if a decimal parse reads it right. -/
theorem variable_reads_alike {name : Text} (hname : isName name = true) :
    (m.shell.vars.getBytes name = none ∨ m.shell.vars.getBytes name = some [] →
      GivesValue out subst m [.Literal (ShellBytes.ofText name)] 0) ∧
    ∀ (c : IntConstant) (span : Span),
      m.shell.vars.getBytes name = some (ShellBytes.ofText c.text) →
        ((GivesValue out subst m [.Literal (ShellBytes.ofText name)] c.value ∧
            GivesValue out subst m [.Param ⟨name, .Normal, span⟩] c.value) ↔ c.ReadsAlike) := by
  constructor
  · intro h
    rw [givesValue_name out subst m hname, varValue_empty hname h]
    rfl
  · intro c span h
    rw [givesValue_name out subst m hname, varValue_text hname (isAscii_text c) h,
      parseI64_constant]
    exact and_iff_left (givesValue_param out subst m hname c span h)

end

/-- A new shell in which `x` has the value `text`. -/
def holdingX (text : Text) : Machine Unit :=
  { shell := { vars :=
      Variables.newClean.insert ['x'] (Var.new (some (ShellBytes.ofText text)) {}) },
    world := () }

/-- The constant `12`. -/
def twelve : IntConstant where
  lead := []
  sign := []
  base := .Decimal
  digits := ['1', '2']
  trail := []
  lead_blank := rfl
  trail_blank := rfl
  sign_eq := .inl rfl
  digits_of := by decide
  accepted := ⟨by decide, by decide⟩
  fits := by decide

theorem variable_reads_alike_twelve :
    GivesValue .idle (fun _ => pure []) (holdingX ['1', '2'])
      [.Literal (ShellBytes.ofText ['x'])] 12 := by
  have hname : isName ['x'] = true := by decide
  have hvalue : (holdingX ['1', '2']).shell.vars.getBytes ['x'] =
      some (ShellBytes.ofText twelve.text) := by decide
  have hreads : twelve.ReadsAlike := .inr ⟨rfl, rfl, .inl rfl⟩
  exact (((variable_reads_alike .idle (fun _ => pure []) (holdingX ['1', '2']) hname).2
    twelve {} hvalue).mpr hreads).1

/-- With `x` at `010`, `$((x))` is ten and `$(($x))` is eight. -/
theorem octal_variable_is_read_as_decimal :
    (expandWordPart .idle (fun _ => pure []) 6 (.Arith [.Literal (ShellBytes.ofText ['x'])])
        false false false (holdingX ['0', '1', '0'])).map Prod.fst =
      some (.ok [⟨['1', '0'], true, false⟩]) ∧
    (expandWordPart .idle (fun _ => pure []) 6 (.Arith [.Param ⟨['x'], .Normal, {}⟩])
        false false false (holdingX ['0', '1', '0'])).map Prod.fst =
      some (.ok [⟨['8'], true, false⟩]) := by
  decide

end Ish.Epsh
