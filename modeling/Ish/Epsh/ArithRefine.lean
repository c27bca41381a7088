import Ish.Epsh.ArithExpr

/-!
# Arithmetic expansion computes the value of the tree

The parser evaluates while it parses. `Runs` says what that means for a part of
the input: with `noeval` off it does what the tree's evaluation does, and with
`noeval` on it parses on, to some value, and changes no variable.

`Parses` says it of each level of the grammar. A level of left-associative
operators is stated up to its loop: after an operand the loop goes on with that
operand's value, which is what the next operator needs.
-/

namespace Ish.Epsh.ArithParser

open Ish.Epsh List Option

abbrev Outcome (α : Type) := EStateM.Result Text ArithParser α

/-- The parser, before `tokens`. -/
def before (p : ArithParser) (tokens : List ArithToken) (vars : Variables)
    (noeval : Bool) : ArithParser :=
  { p with tokens, vars, noeval }

/-! ## What a part of the parser does -/

/-- `m`, with `vars` before it, does what `c` does and goes on with `k`. -/
def Runs {α : Type} (c : EvalM α) (vars : Variables) (noeval : Bool) (m : Outcome Int64)
    (k : α → Variables → Outcome Int64) : Prop :=
  match noeval with
  | true => ∃ v, m = k v vars
  | false =>
    match c vars with
    | .ok v vars' => m = k v vars'
    | .error e vars' => ∃ p, m = .error e p ∧ p.vars = vars'

/-- The sequel of a method that may fail. -/
def andThen {α β : Type} (m : Outcome α) (f : α → ArithM β) :
    Outcome β :=
  match m with
  | .ok v p => f v p
  | .error e p => .error e p

variable {α β : Type}

@[simp] theorem andThen_ok (v : α) (p : ArithParser)
    (f : α → ArithM β) : andThen (.ok v p) f = f v p := rfl

@[simp] theorem andThen_error (e : Text) (p : ArithParser)
    (f : α → ArithM β) : andThen (.error e p) f = .error e p := rfl

theorem andThen_congr {f g : α → ArithM β}
    (h : ∀ v q, f v q = g v q) : andThen m f = andThen m g := by
  cases m with
  | ok v q => exact h v q
  | error e q => rfl

theorem andThen_pure {α : Type} (m : Outcome α) : andThen m (fun v q => .ok v q) = m := by
  cases m <;> rfl

theorem runs_pure {α : Type} (v : α) (vars : Variables) (noeval : Bool)
    (k : α → Variables → Outcome Int64) : Runs (Pure.pure v) vars noeval (k v vars) k := by
  cases noeval with
  | true => exact ⟨v, rfl⟩
  | false => exact rfl

variable {m : Outcome Int64} {vars : Variables}

theorem Runs.bind {c : EvalM α} {d : α → EvalM β}
    {noeval k} (h : Runs c vars noeval m k)
    (hk : ∀ v vars', Runs (d v) vars' noeval (k v vars') k') : Runs (c >>= d) vars noeval m k' := by
  cases noeval with
  | true =>
    obtain ⟨v, rfl⟩ := h
    exact hk v vars
  | false =>
    simp only [Runs, Bind.bind, EStateM.bind] at h hk ⊢
    cases hc : c vars with
    | ok v vars' =>
      rw [hc] at h
      rw [h]
      exact hk v vars'
    | error e vars' =>
      rw [hc] at h
      exact h

theorem Runs.andThen {α : Type} {c : EvalM α} {noeval : Bool}
    {k f} (h : Runs c vars noeval m k) :
    Runs c vars noeval (andThen m f) fun v vars' => ArithParser.andThen (k v vars') f := by
  cases noeval with
  | true =>
    obtain ⟨v, rfl⟩ := h
    exact ⟨v, rfl⟩
  | false =>
    simp only [Runs] at h ⊢
    cases hc : c vars with
    | ok v vars' =>
      rw [hc] at h
      rw [h]
    | error e vars' =>
      rw [hc] at h
      obtain ⟨p, rfl, hp⟩ := h
      exact ⟨p, rfl, hp⟩

theorem Runs.congr {α : Type} {c : EvalM α} {noeval}
    {k k'} (h : Runs c vars noeval m k)
    (hk : ∀ v vars', k v vars' = k' v vars') : Runs c vars noeval m k' := by
  have heq : k = k' := funext fun v => funext fun vars' => hk v vars'
  rw [← heq]
  exact h

/-- The end of a part: its value, before what is left. -/
def done (p : ArithParser) (rest : List ArithToken) (noeval : Bool) (v : Int64)
    (vars : Variables) : Outcome Int64 :=
  .ok v (p.before rest vars noeval)

/-! ## The methods, by the token they meet -/

variable (q : ArithParser)

@[simp] theorem bind_apply (x : ArithM α) (f : α → ArithM β)
    : (x >>= f) q = andThen (x q) f := by
  simp only [bind, EStateM.bind, andThen]
  cases x q <;> rfl

@[simp] theorem map_apply (f : α → β) (x : ArithM α) :
    (f <$> x) q = andThen (x q) fun a q => .ok (f a) q := by
  simp only [Functor.map, EStateM.map, andThen]
  cases x q <;> rfl

@[simp] theorem peek_apply : peek q = .ok q.tokens.head? q := rfl

@[simp] theorem bump_apply :
    bump q = .ok () { q with tokens := q.tokens.tail } := rfl

@[simp] theorem get_apply : (get : ArithM ArithParser) q = .ok q q := rfl

@[simp] theorem pure_apply {α : Type} (a : α) :
    (pure a : ArithM α) q = .ok a q := rfl

@[simp] theorem modify_apply (f : ArithParser → ArithParser) :
    (modify f : ArithM Unit) q = .ok () (f q) := rfl

@[simp] theorem setNoeval_apply (noeval : Bool) :
    setNoeval noeval q = .ok () { q with noeval } := rfl

/-- `set_var`: nothing is stored while skipping. -/
def stored (q : ArithParser) (name : Text) (v : Int64) : ArithParser :=
  if q.noeval then q else { q with vars := assign q.vars name v }

@[simp] theorem setVar_apply (name : Text) (v : Int64) :
    setVar name v q = .ok () (stored q name v) := rfl

@[simp] theorem getVar_apply (name : Text) :
    getVar name q = .ok (varValue q.vars q.exit_status q.shell_pid name) q := rfl

@[simp] theorem advance_apply :
    advance q = .ok q.tokens.head? { q with tokens := q.tokens.tail } := by
  rw [advance, bind_apply, peek_apply, andThen_ok, bind_apply, bump_apply, andThen_ok,
    pure_apply]

section Methods

variable (p : ArithParser) (fuel : Nat) (ts : List ArithToken) (vars : Variables)
  (noeval : Bool)

theorem parseAssignment_assign (name : Text) :
    parseAssignment (fuel + 1) (p.before (.Var name :: .Assign :: ts) vars noeval) =
      andThen (parseAssignment fuel (p.before ts vars noeval)) fun v q =>
        .ok v (stored q name v) := by
  rw [parseAssignment]
  simp only [before, bind_apply, peek_apply, andThen_ok, head?_cons, get_apply,
    bump_apply, tail_cons, if_true]
  exact andThen_congr fun v q => by simp

theorem parseAssignment_compound {tok binary_op : ArithToken} (name : Text)
    (htok : assignmentBinaryOp tok = some binary_op) :
    parseAssignment (fuel + 1) (p.before (.Var name :: tok :: ts) vars noeval) =
      andThen (parseAssignment fuel (p.before ts vars noeval)) fun right q =>
        andThen (applyBinop binary_op
            (varValue q.vars q.exit_status q.shell_pid name) right q) fun v q =>
          .ok v (stored q name v) := by
  have hne : tok ≠ .Assign := by
    rintro rfl
    cases htok
  rw [parseAssignment]
  simp only [before, bind_apply, peek_apply, andThen_ok, head?_cons, get_apply,
    bump_apply, tail_cons, some.injEq, hne, if_false, bind_some, htok]
  refine andThen_congr fun right q => ?_
  simp only [bind_apply, getVar_apply, andThen_ok]
  exact andThen_congr fun v q => by simp

theorem parseAssignment_ternary (h : StartsNoAssignment ts) :
    parseAssignment (fuel + 1) (p.before ts vars noeval) =
      parseTernary fuel (p.before ts vars noeval) := by
  rw [parseAssignment]
  cases ts with
  | nil => simp [before]
  | cons tok ts =>
    cases tok with
    | Var name =>
      cases ts with
      | nil => simp [before]
      | cons tok ts =>
        obtain ⟨hassign, hbinary⟩ := h name tok ts rfl
        simp [before, hassign, hbinary]
    | _ => simp [before]

theorem parseTernary_eq :
    parseTernary (fuel + 1) q =
      andThen (parseOr fuel q) fun cond q =>
        if q.tokens.head? = some .Question then
          andThen (parseExpr fuel { q with
              tokens := q.tokens.tail, noeval := q.noeval || cond = 0 }) fun then_val r =>
            andThen (expect .Colon r) fun _ r =>
              andThen (parseExpr fuel { r with noeval := q.noeval || cond ≠ 0 })
                fun else_val r =>
                  .ok (if cond ≠ 0 then then_val else else_val)
                    { r with noeval := q.noeval }
        else .ok cond q := by
  rw [parseTernary, bind_apply]
  refine andThen_congr fun cond q => ?_
  simp only [bind_apply, peek_apply, andThen_ok]
  by_cases h : q.tokens.head? = some .Question
  · simp only [h, if_true, bind_apply, bump_apply, andThen_ok, get_apply, setNoeval_apply]
    refine andThen_congr fun then_val r => ?_
    rw [bind_apply]
    refine andThen_congr fun _ r => ?_
    simp only [bind_apply, setNoeval_apply, andThen_ok]
    exact andThen_congr fun else_val r => by simp
  · simp [h]

theorem parseExpr_eq : parseExpr (fuel + 1) q = parseAssignment fuel q := by
  rw [parseExpr]

theorem parseOr_eq : parseOr (fuel + 1) q = andThen (parseAnd fuel q) (orLoop fuel) := by
  rw [parseOr, bind_apply]

theorem parseAnd_eq : parseAnd (fuel + 1) q = andThen (parseBinop fuel 1 q) (andLoop fuel) := by
  rw [parseAnd, bind_apply]

theorem parseBinop_eq (min_prec : Nat) :
    parseBinop (fuel + 1) min_prec q =
      andThen (parseUnary fuel q) (binopLoop fuel min_prec) := by
  rw [parseBinop, bind_apply]

variable (left : Int64)

theorem orLoop_or :
    orLoop (fuel + 1) left (p.before (.Or :: ts) vars noeval) =
      andThen (parseAnd fuel (p.before ts vars (noeval || left ≠ 0))) fun right q =>
        orLoop fuel (ofBool (left ≠ 0 ∨ right ≠ 0)) { q with noeval } := by
  rw [orLoop]
  simp only [before, bind_apply, peek_apply, andThen_ok, head?_cons, if_true,
    bump_apply, tail_cons, get_apply, setNoeval_apply]
  exact andThen_congr fun right q => by simp

theorem orLoop_stop (h : q.tokens.head? ≠ some .Or) : orLoop (fuel + 1) left q = .ok left q := by
  rw [orLoop]
  simp [h]

theorem andLoop_and :
    andLoop (fuel + 1) left (p.before (.And :: ts) vars noeval) =
      andThen (parseBinop fuel 1 (p.before ts vars (noeval || left = 0))) fun right q =>
        andLoop fuel (ofBool (left ≠ 0 ∧ right ≠ 0)) { q with noeval } := by
  rw [andLoop]
  simp only [before, bind_apply, peek_apply, andThen_ok, head?_cons, if_true,
    bump_apply, tail_cons, get_apply, setNoeval_apply]
  exact andThen_congr fun right q => by simp

theorem andLoop_stop (h : q.tokens.head? ≠ some .And) : andLoop (fuel + 1) left q = .ok left q := by
  rw [andLoop]
  simp [h]

theorem binopLoop_op {op : BinOp} {k min_prec : Nat}
    (htok : binaryOp tok = some (op, k)) (hle : min_prec ≤ k) :
    binopLoop (fuel + 1) min_prec left (p.before (tok :: ts) vars noeval) =
      andThen (parseBinop fuel (k + 1) (p.before ts vars noeval)) fun right q =>
        andThen (applyBinop tok left right q) fun left q =>
          binopLoop fuel min_prec left q := by
  rw [binopLoop]
  simp only [before, bind_apply, peek_apply, andThen_ok, head?_cons, precedence_eq,
    htok, map_some, hle, if_true, bump_apply, tail_cons]
  exact andThen_congr fun right q => by simp

theorem binopLoop_stop
    (h : ∀ tok op k, q.tokens.head? = some tok → binaryOp tok = some (op, k) →
      k < min_prec) : binopLoop (fuel + 1) min_prec left q = .ok left q := by
  rw [binopLoop]
  simp only [bind_apply, peek_apply, andThen_ok]
  cases hhead : q.tokens.head? with
  | none => rfl
  | some tok =>
    cases hop : binaryOp tok with
    | none => simp [precedence_eq, hop]
    | some opk =>
      have hlt := h tok opk.1 opk.2 hhead hop
      simp [precedence_eq, hop, Nat.not_le.mpr hlt]

theorem parseUnary_op (htok : unaryOp tok = some op) :
    parseUnary (fuel + 1) (p.before (tok :: ts) vars noeval) =
      andThen (parseUnary fuel (p.before ts vars noeval)) fun v q =>
        .ok (op.apply v) q := by
  rw [parseUnary]
  cases tok <;> simp only [unaryOp, reduceCtorEq, some.injEq] at htok <;>
    subst htok
  case Plus => simp [before, andThen_pure]
  all_goals simp [before]

theorem parseUnary_primary (h : ∀ tok ∈ ts.head?, unaryOp tok = none) :
    parseUnary (fuel + 1) (p.before ts vars noeval) =
      parsePrimary fuel (p.before ts vars noeval) := by
  rw [parseUnary]
  cases ts with
  | nil => simp [before]
  | cons tok ts =>
    have htok := h tok rfl
    cases tok <;> simp only [unaryOp, reduceCtorEq] at htok <;> simp [before]

theorem parsePrimary_num (n : Int64) :
    parsePrimary (fuel + 1) (p.before (.Num n :: ts) vars noeval) =
      .ok n (p.before ts vars noeval) := rfl

theorem parsePrimary_var (name : Text) :
    parsePrimary (fuel + 1) (p.before (.Var name :: ts) vars noeval) =
      .ok (varValue vars p.exit_status p.shell_pid name) (p.before ts vars noeval) := rfl

theorem parsePrimary_paren :
    parsePrimary (fuel + 1) (p.before (.LParen :: ts) vars noeval) =
      andThen (parseExpr fuel (p.before ts vars noeval)) fun v q =>
        andThen (expect .RParen q) fun _ q => .ok v q := by
  show (parseExpr fuel >>= fun val => expect .RParen >>= fun _ => pure val)
    (p.before ts vars noeval) = _
  rw [bind_apply]
  refine andThen_congr fun v q => ?_
  rw [bind_apply]
  exact andThen_congr fun _ q => by simp

theorem expect_self (tok : ArithToken) :
    expect tok (p.before (tok :: ts) vars noeval) = .ok () (p.before ts vars noeval) := by
  rw [expect, bind_apply, advance_apply]
  simp only [before, andThen_ok, head?_cons, tail_cons, if_true, pure_apply]

end Methods

/-! ## Levels of the grammar -/

/-- The tokens that may come after an expression of a level: the operators that
go on with it, and what may end it. -/
def follows : Level → ArithToken → Bool
  | .assign, tok | .ternary, tok => tok = .RParen || tok = .Colon
  | .or, tok => tok = .RParen || tok = .Colon || tok = .Question || tok = .Or
  | .and, tok =>
    tok = .RParen || tok = .Colon || tok = .Question || tok = .Or || tok = .And
  | .bin k, tok =>
    tok = .RParen || tok = .Colon || tok = .Question || tok = .Or || tok = .And ||
      (binaryOp tok).any (·.2 ≤ k)
  | .unary, _ | .primary, _ => true

def Follow (level : Level) (rest : List ArithToken) : Prop :=
  ∀ tok ∈ rest.head?, follows level tok = true

/-- The fuel a level needs before it takes a token. -/
def levelFuel : Level → Nat
  | .assign => 7
  | .ternary => 6
  | .or => 5
  | .and => 4
  | .bin _ => 3
  | .unary => 2
  | .primary => 1

def Enough (level : Level) (ts : List ArithToken) (fuel : Nat) : Prop :=
  16 * ts.length + levelFuel level ≤ fuel

section Parses

variable (p : ArithParser)

/-- The value of a tree in the parser's shell. -/
def value (e : ArithExpr) : EvalM Int64 :=
  e.eval .afterOperand p.exit_status p.shell_pid

/-- `parse` takes `ts` for `e`, whatever may come after it. -/
def ParsesTo (level : Level) (ts : List ArithToken) (e : ArithExpr)
    (parse : Nat → ArithM Int64) : Prop :=
  ∀ fuel rest, Enough level ts fuel → Follow level rest → ∀ vars noeval,
    Runs (p.value e) vars noeval (parse fuel (p.before (ts ++ rest) vars noeval))
      (p.done rest noeval)

/-- `parse` takes `ts` for `e` and is then in the loop, with fuel for the rest. -/
def LoopsTo (level : Level) (ts : List ArithToken) (e : ArithExpr)
    (parse : Nat → ArithM Int64) (loop : Nat → Int64 → ArithM Int64) : Prop :=
  ∀ fuel rest, Enough level ts fuel → Follow level rest →
    ∃ left, fuel ≤ left + 1 + ts.length ∧ ∀ vars noeval,
      Runs (p.value e) vars noeval (parse fuel (p.before (ts ++ rest) vars noeval))
        fun v vars => loop left v (p.before rest vars noeval)

def Parses : Level → List ArithToken → ArithExpr → Prop
  | .assign, ts, e => p.ParsesTo .assign ts e parseAssignment
  | .ternary, ts, e => p.ParsesTo .ternary ts e parseTernary
  | .or, ts, e => p.LoopsTo .or ts e parseOr orLoop
  | .and, ts, e => p.LoopsTo .and ts e parseAnd andLoop
  | .bin k, ts, e => ∀ min_prec ≤ k, p.LoopsTo (.bin k) ts e
      (fun fuel => parseBinop fuel min_prec) fun fuel => binopLoop fuel min_prec
  | .unary, ts, e => p.ParsesTo .unary ts e parseUnary
  | .primary, ts, e => p.ParsesTo .primary ts e parsePrimary

variable {p}

/-! ### Steps of the evaluation -/

variable (rest : List ArithToken)

theorem runs_store (name : Text) (v : Int64) (vars : Variables) (noeval : Bool) :
    Runs (store name v >>= fun _ => pure v) vars noeval
      (.ok v (stored (p.before rest vars noeval) name v)) (p.done rest noeval) := by
  cases noeval with
  | true => exact ⟨v, rfl⟩
  | false => rfl

theorem runs_read (name : Text) (vars : Variables) (noeval : Bool)
    (k : Int64 → Variables → Outcome Int64) :
    Runs (read p.exit_status p.shell_pid name) vars noeval
      (k (varValue vars p.exit_status p.shell_pid name) vars) k := by
  cases noeval with
  | true => exact ⟨_, rfl⟩
  | false => rfl

theorem runs_applyOp
    (htok : binaryOp tok = some (op, k)) (a b : Int64) (rest : List ArithToken)
    (vars : Variables) (noeval : Bool) (f : Int64 → ArithM Int64) :
    Runs (applyOp op a b) vars noeval
      (andThen (applyBinop tok a b (p.before rest vars noeval)) f)
      fun v vars => f v (p.before rest vars noeval) := by
  cases noeval with
  | true =>
    refine ⟨0, ?_⟩
    simp [applyBinop, before]
  | false =>
    rw [Runs, applyOp, ← binopValue_eq htok]
    simp only [applyBinop, bind_apply, get_apply, andThen_ok, before]
    cases binopValue tok a b with
    | ok n => rfl
    | error e => exact ⟨_, rfl, rfl⟩

theorem runs_shortCircuit {c noeval skip}
    {rest} {f : Int64 → ArithM Int64}
    {skipped : Int64} {g : Int64 → Int64} {k : Int64 → Variables → Outcome Int64}
    (h : Runs c vars (noeval || skip) m (p.done rest (noeval || skip)))
    (hf : ∀ b vars', ∃ v, f b (p.before rest vars' (noeval || skip)) = k v vars' ∧
      v = if skip then skipped else g b) :
    Runs (if skip then pure skipped else c >>= fun b => pure (g b)) vars noeval
      (ArithParser.andThen m f) k := by
  cases noeval with
  | true =>
    obtain ⟨b, rfl⟩ := h
    obtain ⟨v, hv, -⟩ := hf b vars
    exact ⟨v, hv⟩
  | false =>
    cases skip with
    | true =>
      obtain ⟨b, rfl⟩ := h
      obtain ⟨v, hv, rfl⟩ := hf b vars
      exact hv
    | false =>
      refine h.andThen.bind fun b vars' => ?_
      obtain ⟨v, hv, rfl⟩ := hf b vars'
      exact hv

/-! ### One case a production -/

section Cases

variable {ts ls rs cs fs : List ArithToken} {e l r c t f : ArithExpr}

theorem Follow.mono {level level' rest}
    (h : Follow level rest)
    (himp : ∀ tok, follows level tok = true → follows level' tok = true) :
    Follow level' rest := fun tok htok => himp tok (h tok htok)

theorem parses_assign {name : Text} (he : p.Parses .assign ts e) :
    p.Parses .assign (.Var name :: .Assign :: ts) (.assign name e) := by
  intro fuel rest hfuel hfollow vars noeval
  simp only [Enough, levelFuel, length_cons] at hfuel
  obtain ⟨fuel, rfl⟩ : ∃ n, fuel = n + 1 := ⟨fuel - 1, by omega⟩
  have hrun := he fuel rest (by rw [Enough, levelFuel]; omega) hfollow vars noeval
  rw [cons_append, cons_append, parseAssignment_assign]
  exact hrun.andThen.bind fun v vars => runs_store rest name v vars noeval

theorem parses_compound {name : Text} {tok op}
    (htok : compoundOp tok = some op) (he : p.Parses .assign ts e) :
    p.Parses .assign (.Var name :: tok :: ts) (.compound name op e) := by
  intro fuel rest hfuel hfollow vars noeval
  simp only [Enough, levelFuel, length_cons] at hfuel
  obtain ⟨fuel, rfl⟩ : ∃ n, fuel = n + 1 := ⟨fuel - 1, by omega⟩
  have hrun := he fuel rest (by rw [Enough, levelFuel]; omega) hfollow vars noeval
  obtain ⟨binary_op, k, hbinary, hop⟩ := binaryOp_of_compoundOp htok
  have hvalue : p.value (.compound name op e) =
      p.value e >>= fun b => read p.exit_status p.shell_pid name >>= fun a =>
        applyOp op a b >>= fun n => store name n >>= fun _ => pure n := by
    simp [value, ArithExpr.eval]
  rw [cons_append, cons_append, parseAssignment_compound _ _ _ _ _ _ hbinary,
    hvalue]
  refine hrun.andThen.bind fun b vars => ?_
  refine (runs_read name vars noeval fun a vars =>
    andThen (applyBinop binary_op a b (p.before rest vars noeval))
      fun v q => .ok v (stored q name v)).bind fun a vars => ?_
  exact (runs_applyOp hop a b rest vars noeval _).bind fun n vars =>
    runs_store rest name n vars noeval

theorem parses_toAssign (hd : Derives .ternary ts e) (he : p.Parses .ternary ts e) :
    p.Parses .assign ts e := by
  intro fuel rest hfuel hfollow vars noeval
  simp only [Enough, levelFuel] at hfuel
  obtain ⟨fuel, rfl⟩ : ∃ n, fuel = n + 1 := ⟨fuel - 1, by omega⟩
  have hstarts : StartsNoAssignment (ts ++ rest) := by
    have hts := hd.startsNoAssignment (by simp)
    cases rest with
    | nil => rwa [append_nil]
    | cons tok rest =>
      refine hts.append hd.ne_nil ?_
      have htok := hfollow tok rfl
      simp only [follows, Bool.or_eq_true, decide_eq_true_eq] at htok
      rcases htok with rfl | rfl <;> exact ⟨by simp, rfl⟩
  rw [parseAssignment_ternary _ _ _ _ _ hstarts]
  exact he fuel rest (by rw [Enough, levelFuel]; omega) hfollow vars noeval

/-- After an operand that nothing goes on, a loop ends. -/
theorem orLoop_done (h : Follow .ternary rest) (fuel : Nat)
    (v : Int64) (vars : Variables) (noeval : Bool) :
    orLoop (fuel + 1) v (p.before rest vars noeval) = p.done rest noeval v vars := by
  refine orLoop_stop _ _ _ fun hhead => ?_
  have htok := h _ hhead
  simp [follows] at htok

theorem andLoop_done (h : Follow .or rest) (fuel : Nat)
    (v : Int64) (vars : Variables) (noeval : Bool) :
    andLoop (fuel + 1) v (p.before rest vars noeval) = p.done rest noeval v vars := by
  refine andLoop_stop _ _ _ fun hhead => ?_
  have htok := h _ hhead
  simp [follows] at htok

theorem binopLoop_done (h : Follow (.bin k) rest)
    (fuel : Nat) (v : Int64) (vars : Variables) (noeval : Bool) :
    binopLoop (fuel + 1) (k + 1) v (p.before rest vars noeval) =
      p.done rest noeval v vars := by
  refine binopLoop_stop _ _ _ fun tok op k' hhead hop => ?_
  have htok := h _ hhead
  cases tok <;> simp only [binaryOp, reduceCtorEq, some.injEq, Prod.mk.injEq]
    at hop <;> obtain ⟨-, rfl⟩ := hop <;>
    simp [follows, binaryOp] at htok <;> omega

theorem parses_toTernary (he : p.Parses .or ts e) : p.Parses .ternary ts e := by
  intro fuel rest hfuel hfollow vars noeval
  simp only [Enough, levelFuel] at hfuel
  obtain ⟨fuel, rfl⟩ : ∃ n, fuel = n + 1 := ⟨fuel - 1, by omega⟩
  have hor : Follow .or rest := hfollow.mono fun tok => by
    simp only [follows, Bool.or_eq_true]
    tauto
  obtain ⟨left, hleft, hrun⟩ := he fuel rest (by rw [Enough, levelFuel]; omega) hor
  obtain ⟨left, rfl⟩ : ∃ n, left = n + 1 := ⟨left - 1, by omega⟩
  have hquestion : (p.before rest vars noeval).tokens.head? ≠ some .Question := by
    intro hhead
    have htok := hfollow _ hhead
    simp [follows] at htok
  rw [parseTernary_eq]
  refine (hrun vars noeval).andThen.congr fun v vars => ?_
  rw [orLoop_done rest hfollow]
  exact if_neg hquestion

theorem parses_or (hl : p.Parses .or ls l) (hr : p.Parses .and rs r) :
    p.Parses .or (ls ++ .Or :: rs) (.or l r) := by
  intro fuel rest hfuel hfollow
  simp only [Enough, levelFuel, length_append, length_cons] at hfuel
  obtain ⟨left, hleft, hrunl⟩ := hl fuel (.Or :: (rs ++ rest))
    (by rw [Enough, levelFuel]; omega) (by rintro tok ⟨rfl⟩; rfl)
  obtain ⟨left, rfl⟩ : ∃ n, left = n + 1 := ⟨left - 1, by omega⟩
  obtain ⟨right, hright, hrunr⟩ := hr left rest (by rw [Enough, levelFuel]; omega)
    (hfollow.mono fun tok => by simp only [follows, Bool.or_eq_true]; tauto)
  obtain ⟨right, rfl⟩ : ∃ n, right = n + 1 := ⟨right - 1, by omega⟩
  refine ⟨left, by rw [length_append, length_cons]; omega,
    fun vars noeval => ?_⟩
  have hvalue : p.value (.or l r) = p.value l >>= fun a =>
      if decide (a ≠ 0) then pure 1
      else p.value r >>= fun b => pure (truth (b ≠ 0)) := by
    simp [value, ArithExpr.eval]
  rw [append_assoc, cons_append, hvalue]
  refine (hrunl vars noeval).bind fun a vars => ?_
  rw [orLoop_or]
  refine runs_shortCircuit ((hrunr vars _).congr fun b vars =>
    andLoop_done rest hfollow right b vars _) fun b vars => ⟨_, rfl, ?_⟩
  by_cases ha : a = 0 <;> simp [ha, ofBool, truth]

theorem parses_toOr (he : p.Parses .and ts e) : p.Parses .or ts e := by
  intro fuel rest hfuel hfollow
  simp only [Enough, levelFuel] at hfuel
  obtain ⟨fuel, rfl⟩ : ∃ n, fuel = n + 1 := ⟨fuel - 1, by omega⟩
  obtain ⟨left, hleft, hrun⟩ := he fuel rest (by rw [Enough, levelFuel]; omega)
    (hfollow.mono fun tok => by simp only [follows, Bool.or_eq_true]; tauto)
  obtain ⟨left, rfl⟩ : ∃ n, left = n + 1 := ⟨left - 1, by omega⟩
  refine ⟨fuel, by omega, fun vars noeval => ?_⟩
  rw [parseOr_eq]
  refine (hrun vars noeval).andThen.congr fun v vars => ?_
  rw [andLoop_done rest hfollow]
  rfl

theorem parses_and (hl : p.Parses .and ls l) (hr : p.Parses (.bin 1) rs r) :
    p.Parses .and (ls ++ .And :: rs) (.and l r) := by
  intro fuel rest hfuel hfollow
  simp only [Enough, levelFuel, length_append, length_cons] at hfuel
  obtain ⟨left, hleft, hrunl⟩ := hl fuel (.And :: (rs ++ rest))
    (by rw [Enough, levelFuel]; omega) (by rintro tok ⟨rfl⟩; rfl)
  obtain ⟨left, rfl⟩ : ∃ n, left = n + 1 := ⟨left - 1, by omega⟩
  have hbin : ∀ k, Follow (.bin k) rest := fun k => hfollow.mono fun tok => by
    simp only [follows, Bool.or_eq_true]
    tauto
  obtain ⟨right, hright, hrunr⟩ := hr 1 (Nat.le_refl 1) left rest
    (by rw [Enough, levelFuel]; omega) (hbin 1)
  obtain ⟨right, rfl⟩ : ∃ n, right = n + 1 := ⟨right - 1, by omega⟩
  refine ⟨left, by rw [length_append, length_cons]; omega,
    fun vars noeval => ?_⟩
  have hvalue : p.value (.and l r) = p.value l >>= fun a =>
      if decide (a = 0) then pure 0
      else p.value r >>= fun b => pure (truth (b ≠ 0)) := by
    simp [value, ArithExpr.eval]
  rw [append_assoc, cons_append, hvalue]
  refine (hrunl vars noeval).bind fun a vars => ?_
  rw [andLoop_and]
  refine runs_shortCircuit ((hrunr vars _).congr fun b vars =>
    binopLoop_done rest (hbin 0) right b vars _) fun b vars => ⟨_, rfl, ?_⟩
  by_cases ha : a = 0 <;> simp [ha, ofBool, truth]

theorem parses_toAnd (he : p.Parses (.bin 1) ts e) : p.Parses .and ts e := by
  intro fuel rest hfuel hfollow
  simp only [Enough, levelFuel] at hfuel
  obtain ⟨fuel, rfl⟩ : ∃ n, fuel = n + 1 := ⟨fuel - 1, by omega⟩
  have hbin : ∀ k, Follow (.bin k) rest := fun k => hfollow.mono fun tok => by
    simp only [follows, Bool.or_eq_true]
    tauto
  obtain ⟨left, hleft, hrun⟩ := he 1 (Nat.le_refl 1) fuel rest
    (by rw [Enough, levelFuel]; omega) (hbin 1)
  obtain ⟨left, rfl⟩ : ∃ n, left = n + 1 := ⟨left - 1, by omega⟩
  refine ⟨fuel, by omega, fun vars noeval => ?_⟩
  rw [parseAnd_eq]
  exact (hrun vars noeval).andThen.congr fun v vars =>
    congrArg (andThen · (andLoop fuel)) (binopLoop_done rest (hbin 0) left v vars noeval)

theorem Follow.bin_succ {k rest} (h : Follow (.bin k) rest) :
    Follow (.bin (k + 1)) rest := by
  refine h.mono fun tok htok => ?_
  simp only [follows, Bool.or_eq_true, Option.any_eq_true, decide_eq_true_eq] at htok ⊢
  rcases htok with htok | ⟨opk, hopk, hle⟩
  · exact .inl htok
  · exact .inr ⟨opk, hopk, by omega⟩

theorem parses_binary {tok : ArithToken} {op k}
    (htok : binaryOp tok = some (op, k)) (hl : p.Parses (.bin k) ls l)
    (hr : p.Parses (.bin (k + 1)) rs r) : p.Parses (.bin k) (ls ++ tok :: rs) (.binary op l r) := by
  intro min_prec hmin fuel rest hfuel hfollow
  simp only [Enough, levelFuel, length_append, length_cons] at hfuel
  obtain ⟨left, hleft, hrunl⟩ := hl min_prec hmin fuel (tok :: (rs ++ rest))
    (by rw [Enough, levelFuel]; omega) (by rintro tok' ⟨rfl⟩; simp [follows, htok])
  obtain ⟨left, rfl⟩ : ∃ n, left = n + 1 := ⟨left - 1, by omega⟩
  obtain ⟨right, hright, hrunr⟩ := hr (k + 1) (Nat.le_refl _) left rest
    (by rw [Enough, levelFuel]; omega) hfollow.bin_succ
  obtain ⟨right, rfl⟩ : ∃ n, right = n + 1 := ⟨right - 1, by omega⟩
  refine ⟨left, by rw [length_append, length_cons]; omega,
    fun vars noeval => ?_⟩
  rw [append_assoc, cons_append]
  refine (hrunl vars noeval).bind fun a vars => ?_
  show Runs _ vars noeval (binopLoop (left + 1) min_prec a _) _
  rw [binopLoop_op _ _ _ _ _ _ htok hmin]
  refine ((hrunr vars noeval).congr fun b vars =>
    binopLoop_done rest hfollow right b vars noeval).andThen.bind fun b vars => ?_
  exact runs_applyOp htok a b rest vars noeval _

theorem parses_toBin (he : p.Parses (.bin (k + 1)) ts e) : p.Parses (.bin k) ts e := by
  intro min_prec hmin fuel rest hfuel hfollow
  exact he min_prec (by omega) fuel rest hfuel hfollow.bin_succ

theorem parses_unaryToBin (he : p.Parses .unary ts e) : p.Parses (.bin 9) ts e := by
  intro min_prec hmin fuel rest hfuel hfollow
  simp only [Enough, levelFuel] at hfuel
  obtain ⟨fuel, rfl⟩ : ∃ n, fuel = n + 1 := ⟨fuel - 1, by omega⟩
  refine ⟨fuel, by omega, fun vars noeval => ?_⟩
  show Runs _ vars noeval (parseBinop (fuel + 1) min_prec _) _
  rw [parseBinop_eq]
  exact (he fuel rest (by rw [Enough, levelFuel]; omega) (fun _ _ => rfl) vars
    noeval).andThen

theorem parses_unary {tok : ArithToken} {op} (htok : unaryOp tok = some op)
    (he : p.Parses .unary ts e) : p.Parses .unary (tok :: ts) (.unary op e) := by
  intro fuel rest hfuel hfollow vars noeval
  simp only [Enough, levelFuel, length_cons] at hfuel
  obtain ⟨fuel, rfl⟩ : ∃ n, fuel = n + 1 := ⟨fuel - 1, by omega⟩
  have hrun := he fuel rest (by rw [Enough, levelFuel]; omega) hfollow vars noeval
  rw [cons_append, parseUnary_op _ _ _ _ _ htok]
  exact hrun.andThen.bind fun v vars =>
    runs_pure (op.apply v) vars noeval (p.done rest noeval)

theorem parses_toUnary (hd : Derives .primary ts e) (he : p.Parses .primary ts e) :
    p.Parses .unary ts e := by
  intro fuel rest hfuel hfollow vars noeval
  simp only [Enough, levelFuel] at hfuel
  obtain ⟨fuel, rfl⟩ : ∃ n, fuel = n + 1 := ⟨fuel - 1, by omega⟩
  have hhead : ∀ tok ∈ (ts ++ rest).head?, unaryOp tok = none := by
    rintro tok htok
    cases hd <;> obtain rfl := some.inj htok <;> rfl
  rw [parseUnary_primary _ _ _ _ _ hhead]
  exact he fuel rest (by rw [Enough, levelFuel]; omega) hfollow vars noeval

theorem parses_num : p.Parses .primary [.Num n] (.num n) := by
  intro fuel rest hfuel hfollow vars noeval
  simp only [Enough, levelFuel] at hfuel
  obtain ⟨fuel, rfl⟩ : ∃ n, fuel = n + 1 := ⟨fuel - 1, by omega⟩
  rw [cons_append, nil_append, parsePrimary_num]
  exact runs_pure n vars noeval (p.done rest noeval)

theorem parses_var : p.Parses .primary [.Var name] (.var name) := by
  intro fuel rest hfuel hfollow vars noeval
  simp only [Enough, levelFuel] at hfuel
  obtain ⟨fuel, rfl⟩ : ∃ n, fuel = n + 1 := ⟨fuel - 1, by omega⟩
  rw [cons_append, nil_append, parsePrimary_var]
  exact runs_read name vars noeval (p.done rest noeval)

theorem parses_paren (he : p.Parses .assign ts e) :
    p.Parses .primary (.LParen :: (ts ++ [.RParen])) e := by
  intro fuel rest hfuel hfollow vars noeval
  simp only [Enough, levelFuel, length_cons, length_append, length_nil]
    at hfuel
  obtain ⟨fuel, rfl⟩ : ∃ n, fuel = n + 2 := ⟨fuel - 2, by omega⟩
  have hrun := he fuel (.RParen :: rest) (by rw [Enough, levelFuel]; omega)
    (by rintro tok ⟨rfl⟩; rfl) vars noeval
  rw [cons_append, append_assoc, cons_append, nil_append,
    parsePrimary_paren, parseExpr_eq]
  refine hrun.andThen.congr fun v vars => ?_
  exact congrArg (fun m : Outcome Unit => andThen m fun _ q => .ok v q)
    (expect_self p rest vars noeval .RParen)

/-- The branches of `?:`: both are parsed, and the selected one is evaluated. -/
theorem runs_branches {a : Int64} {then_ else_ : EvalM Int64}
    {noeval : Bool} {mid rest : List ArithToken}
    {parseElse : Variables → Outcome Int64} {sequel : Int64 → ArithM Int64}
    (ht : Runs then_ vars (noeval || a = 0) m (p.done mid (noeval || a = 0)))
    (he : ∀ vars, Runs else_ vars (noeval || a ≠ 0) (parseElse vars)
      (p.done rest (noeval || a ≠ 0)))
    (hsequel : ∀ then_val vars, sequel then_val (p.before mid vars (noeval || a = 0)) =
      andThen (parseElse vars) fun else_val r =>
        .ok (if a ≠ 0 then then_val else else_val) { r with noeval }) :
    Runs (if a ≠ 0 then then_ else else_) vars noeval (andThen m sequel)
      (p.done rest noeval) := by
  cases noeval with
  | true =>
    obtain ⟨then_val, rfl⟩ := ht
    obtain ⟨else_val, helse⟩ := he vars
    refine ⟨if a ≠ 0 then then_val else else_val, (hsequel then_val vars).trans ?_⟩
    rw [helse]
    rfl
  | false =>
    by_cases ha : a = 0
    · subst ha
      obtain ⟨then_val, rfl⟩ := ht
      rw [if_neg (by simp)]
      have hseq : andThen (p.done mid true then_val vars) sequel =
          sequel then_val (p.before mid vars true) := rfl
      refine Eq.substr (hseq.trans (hsequel then_val vars)) ?_
      exact (he vars).andThen.congr fun else_val vars => rfl
    · rw [if_pos ha]
      have hskip : decide (a = 0) = false := by simp [ha]
      have htrue : decide (a ≠ 0) = true := by simp [ha]
      simp only [hskip, htrue, Bool.or_false, Bool.or_true] at ht he hsequel
      refine ht.andThen.congr fun then_val vars => ?_
      obtain ⟨else_val, helse⟩ := he vars
      refine (hsequel then_val vars).trans ?_
      rw [helse]
      exact congrArg (fun v => EStateM.Result.ok v (p.before rest vars false)) (if_pos ha)

theorem parses_cond (hc : p.Parses .or cs c) (ht : p.Parses .assign ts t)
    (hf : p.Parses .assign fs f) :
    p.Parses .ternary (cs ++ .Question :: (ts ++ .Colon :: fs)) (.cond c t f) := by
  intro fuel rest hfuel hfollow vars noeval
  simp only [Enough, levelFuel, length_append, length_cons] at hfuel
  obtain ⟨fuel, rfl⟩ : ∃ n, fuel = n + 2 := ⟨fuel - 2, by omega⟩
  obtain ⟨left, hleft, hrunc⟩ := hc (fuel + 1)
    (.Question :: (ts ++ .Colon :: (fs ++ rest)))
    (by rw [Enough, levelFuel]; omega) (by rintro tok ⟨rfl⟩; rfl)
  obtain ⟨left, rfl⟩ : ∃ n, left = n + 1 := ⟨left - 1, by omega⟩
  have hrunt := ht fuel (.Colon :: (fs ++ rest)) (by rw [Enough, levelFuel]; omega)
    (by rintro tok ⟨rfl⟩; rfl)
  have hrunf := hf fuel rest (by rw [Enough, levelFuel]; omega) hfollow
  simp only [append_assoc, cons_append]
  rw [parseTernary_eq]
  have hvalue : p.value (.cond c t f) = p.value c >>= fun a =>
      if a ≠ 0 then p.value t else p.value f := rfl
  rw [hvalue]
  refine (hrunc vars noeval).andThen.bind fun a vars => ?_
  rw [orLoop_stop]
  · show Runs _ vars noeval (andThen (parseExpr (fuel + 1) (p.before
      (ts ++ .Colon :: (fs ++ rest)) vars (noeval || a = 0))) _) _
    rw [parseExpr_eq]
    refine runs_branches (hrunt vars _) (fun vars => hrunf vars _)
      fun then_val vars => ?_
    refine (congrArg (fun m : Outcome Unit => andThen m _)
      (expect_self p (fs ++ rest) vars _ .Colon)).trans ?_
    rw [← parseExpr_eq]
    rfl
  · simp [before]

end Cases

/-- **The parser at every level of the grammar.** -/
theorem derives_parses
    (h : Derives level ts e) : p.Parses level ts e := by
  induction h with
  | assign he ih => exact parses_assign ih
  | compound htok he ih => exact parses_compound htok ih
  | toAssign he ih => exact parses_toAssign he ih
  | cond hc ht hf ihc iht ihf => exact parses_cond ihc iht ihf
  | toTernary he ih => exact parses_toTernary ih
  | or hl hr ihl ihr => exact parses_or ihl ihr
  | toOr he ih => exact parses_toOr ih
  | and hl hr ihl ihr => exact parses_and ihl ihr
  | toAnd he ih => exact parses_toAnd ih
  | binary htok hl hr ihl ihr => exact parses_binary htok ihl ihr
  | toBin he ih => exact parses_toBin ih
  | unaryToBin he ih => exact parses_unaryToBin ih
  | unary htok he ih => exact parses_unary htok ih
  | toUnary he ih => exact parses_toUnary he ih
  | num => exact parses_num
  | var => exact parses_var
  | paren he ih => exact parses_paren ih

end Parses

end Ish.Epsh.ArithParser

namespace Ish.Epsh

/-! ## `eval_arith` -/

theorem evalArithTokens_eq_run
    (h : Derives .assign tokens e) (vars : Variables) (exit_status : Int) (shell_pid : Nat) :
    evalArithTokens tokens vars exit_status shell_pid =
      e.run .afterOperand exit_status shell_pid vars := by
  let p : ArithParser := { tokens, vars, exit_status, shell_pid, noeval := false }
  have hfuel : ArithParser.Enough .assign tokens (16 * (tokens.length + 1) - 1) := by
    rw [ArithParser.Enough, ArithParser.levelFuel]
    omega
  have hrun := ArithParser.derives_parses (p := p) h _ [] hfuel
    (by rintro tok ⟨⟩) vars false
  rw [List.append_nil, ← ArithParser.parseExpr_eq] at hrun
  have hsucc : 16 * (tokens.length + 1) - 1 + 1 = arithFuel tokens := by
    rw [arithFuel]
    omega
  rw [hsucc] at hrun
  simp only [ArithParser.Runs, ArithParser.value] at hrun
  have hstart : ({ tokens, vars, exit_status, shell_pid, noeval := false } : ArithParser) =
      p.before tokens vars false := rfl
  rw [evalArithTokens, ArithExpr.run, hstart]
  cases heval : e.eval .afterOperand exit_status shell_pid vars with
  | ok v vars' =>
    have hv : e.eval .afterOperand p.exit_status p.shell_pid vars = .ok v vars' := heval
    rw [hv] at hrun
    rw [hrun]
    rfl
  | error err vars' =>
    have herr : e.eval .afterOperand p.exit_status p.shell_pid vars =
      .error err vars' := heval
    rw [herr] at hrun
    obtain ⟨q, hq, rfl⟩ := hrun
    rw [hq]

/-- **Arithmetic expansion** of an expression of the grammar gives the value or
the error of its tree, and leaves the variables its evaluation leaves: left
operands first, operands that are skipped not at all, and for a compound
assignment its operand before its destination. -/
theorem evalArith_eq_run {tokens : List ArithToken} {e : ArithExpr}
    (h : Derives .assign tokens e) (vars : Variables) (exit_status : Int) (shell_pid : Nat) :
    evalArithTokens tokens vars exit_status shell_pid =
        e.run .afterOperand exit_status shell_pid vars ∧
      ∀ expr, tokenize expr = .ok tokens →
        evalArith expr vars exit_status shell_pid =
          e.run .afterOperand exit_status shell_pid vars := by
  refine ⟨evalArithTokens_eq_run h vars exit_status shell_pid, fun expr hexpr => ?_⟩
  rw [evalArith, hexpr]
  exact evalArithTokens_eq_run h vars exit_status shell_pid

/-- `x += (x = 5)` -/
theorem derives_assign_in_compound :
    Derives .assign
      [.Var ['x'], .AddAssign, .LParen, .Var ['x'], .Assign, .Num 5, .RParen]
      (.compound ['x'] .add (.assign ['x'] (.num 5))) := by
  have hnum : Derives (.bin 1) [.Num 5] (.num 5) :=
    .toBin (.toBin (.toBin (.toBin (.toBin (.toBin (.toBin (.toBin
      (.unaryToBin (.toUnary .num)))))))))
  have hparen : Derives .primary [.LParen, .Var ['x'], .Assign, .Num 5, .RParen]
      (.assign ['x'] (.num 5)) :=
    .paren (.assign (.toAssign (.toTernary (.toOr (.toAnd hnum)))))
  refine .compound rfl (.toAssign (.toTernary (.toOr (.toAnd ?_))))
  exact .toBin (.toBin (.toBin (.toBin (.toBin (.toBin (.toBin (.toBin
    (.unaryToBin (.toUnary hparen)))))))))

theorem evalArith_eq_run_compound :
    let vars := Variables.newClean.insert ['x'] (Variables.intVar 1 {})
    evalArithTokens [.Var ['x'], .AddAssign, .LParen, .Var ['x'], .Assign, .Num 5, .RParen]
        vars 0 1 =
        (ArithExpr.compound ['x'] .add (.assign ['x'] (.num 5))).run .afterOperand 0 1 vars ∧
      ∀ expr, tokenize expr = .ok [.Var ['x'], .AddAssign, .LParen, .Var ['x'], .Assign,
          .Num 5, .RParen] →
        evalArith expr vars 0 1 =
          (ArithExpr.compound ['x'] .add (.assign ['x'] (.num 5))).run .afterOperand 0 1
            vars :=
  evalArith_eq_run derives_assign_in_compound _ 0 1

/-- Strictly from left to right the destination comes first: with `x` at 1 the
sum would be 6, and it is 10. -/
theorem compound_reads_destination_last :
    let vars := Variables.newClean.insert ['x'] (Variables.intVar 1 {})
    ∃ tokens e, Derives .assign tokens e ∧
      evalArithTokens tokens vars 0 1 ≠ e.run .beforeOperand 0 1 vars := by
  refine ⟨_, _, derives_assign_in_compound, fun heq => ?_⟩
  have hvalue := congrArg (fun r : Except Text Int64 × Variables => r.1.toOption) heq
  revert hvalue
  decide

end Ish.Epsh
