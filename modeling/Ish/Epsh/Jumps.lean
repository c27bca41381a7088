import Ish.Epsh.Unwinding

/-!
# Jumps — the loop that `break` and `continue` reach

The rounds of the loops of `eval_command_inner`, what a loop makes of a jump out of its
body or out of its condition, and how far a jump comes through all that is being
evaluated. A loop that is entered by its condition lets a jump through as it is.
-/

namespace Ish.Epsh

open Ish.Lib List
open Process (attempt_run bind_error bind_ok bind_run)

variable {W : Type}

/-! ## Rounds -/

/-- `until` where `until_` holds, and `while` otherwise. -/
def whileCommand (until_ : Bool) (cond body : Command) : Command :=
  if until_ then .Until cond body else .While cond body

theorem isLeaf_whileCommand (until_ : Bool) (cond body : Command) :
    (whileCommand until_ cond body).isLeaf = false := by
  cases until_ <;> rfl

section

variable (out : Outside W) (eval : Command → ShellM W ExitStatus)

/-- A `while` loop that has `n` rounds of fuel begins a round with `k` of them left. -/
inductive WhileAt (until_ : Bool) (cond body : Command) (n : Nat) (m : Machine W) :
    Nat → ExitStatus → Machine W → Prop where
  | first : WhileAt until_ cond body n m n .SUCCESS m
  | next {k : Nat} {last_status last_status' status : ExitStatus}
      {result : Except ShellError ExitStatus} {t u v w : Machine W}
      (h : WhileAt until_ cond body n m (k + 1) last_status t)
      (hcancel : checkCancel out t = some (.ok (), u))
      (hcond : evalCondition (eval cond) u = some (.ok status, v))
      (hgo : (status.success == until_) = false)
      (hbody : Process.attempt (eval body) v = some (.ok result, w))
      (hround : roundEnd last_status result = .inl last_status') :
      WhileAt until_ cond body n m k last_status' w

/-- A `for` loop over `values` begins a round, with the values that are left. -/
inductive ForAt (var : Text) (body : Command) (values : List Text) (m : Machine W) :
    List Text → ExitStatus → Machine W → Prop where
  | first : ForAt var body values m values .SUCCESS m
  | next {value : Text} {rest : List Text} {last_status last_status' : ExitStatus}
      {result : Except ShellError ExitStatus} {t u v w : Machine W}
      (h : ForAt var body values m (value :: rest) last_status t)
      (hcancel : checkCancel out t = some (.ok (), u))
      (hset : setShell var value u = some (.ok (.ok ()), v))
      (hbody : Process.attempt (eval body) v = some (.ok result, w))
      (hround : roundEnd last_status result = .inl last_status') :
      ForAt var body values m rest last_status' w

/-- The rounds of a loop from the middle of it on, and its end. -/
def restOfLoop (frames : List Frame) (rounds : ShellM W LoopEnd) : ShellM W ExitStatus := fun t =>
  match rounds t with
  | some (.ok (.finished status), u) => some (.ok status, u.outOfLoop frames)
  | some (.ok (.left e), u) => some (.error e, u.outOfLoop frames)
  | some (.ok (.abandoned msg), u) => (do errMsg out msg; return ExitStatus.FAILURE :
      ShellM W ExitStatus) ((u.backIn frames).note (.broke .loop (.Runtime msg {})))
  | some (.error e, u) => some (.error e, (u.backIn frames).note (.broke .loop e))
  | some (.quit q, u) => some (.quit q, u.backIn frames)
  | none => none

/-- What a loop does after a round that ended with `result`. -/
def afterRound (rest : ExitStatus → ShellM W LoopEnd) (last_status : ExitStatus)
    (result : Except ShellError ExitStatus) : ShellM W LoopEnd :=
  match roundEnd last_status result with
  | .inl status => rest status
  | .inr loop_end => pure loop_end

end

section

variable {out : Outside W} {eval : Command → ShellM W ExitStatus} {m t u v w : Machine W}

theorem inLoop_eq (rounds : ShellM W LoopEnd) (m : Machine W) :
    inLoop out rounds m = restOfLoop out m.frames rounds m.inLoop := inLoop_run out rounds m

theorem restOfLoop_congr
    (h : rounds t = rounds' u) : restOfLoop out frames rounds t = restOfLoop out frames rounds' u := by
  unfold restOfLoop
  rw [h]

theorem whileRounds_round {until_ cond body k} (hcancel : checkCancel out t = some (.ok (), u))
    (hcond : evalCondition (eval cond) u = some (.ok status, v))
    (hgo : (status.success == until_) = false)
    (hbody : Process.attempt (eval body) v = some (.ok result, w)) :
    whileRounds out eval until_ cond body (k + 1) last_status t =
      afterRound (whileRounds out eval until_ cond body k) last_status result w := by
  rw [whileRounds, bind_ok hcancel, bind_ok hcond, if_neg (by simp [hgo]),
    bind_ok hbody]
  rfl

theorem forRounds_round (hcancel : checkCancel out t = some (.ok (), u))
    (hset : setShell var value u = some (.ok (.ok ()), v))
    (hbody : Process.attempt (eval body) v = some (.ok result, w)) :
    forRounds out eval var body (value :: rest) last_status t =
      afterRound (forRounds out eval var body rest) last_status result w := by
  rw [forRounds, bind_ok hcancel, bind_ok hset]
  dsimp only
  rw [bind_ok hbody]
  rfl

theorem WhileAt.run {until_ cond body n k last_status}
    (h : WhileAt out eval until_ cond body n m k last_status t) :
    whileRounds out eval until_ cond body n .SUCCESS m =
      whileRounds out eval until_ cond body k last_status t := by
  induction h with
  | first => rfl
  | next _ hcancel hcond hgo hbody hround ih =>
    rw [ih, whileRounds_round hcancel hcond hgo hbody, afterRound, hround]

theorem ForAt.run (h : ForAt out eval var body values m rest last_status t) :
    forRounds out eval var body values .SUCCESS m = forRounds out eval var body rest last_status t := by
  induction h with
  | first => rfl
  | next _ hcancel hset hbody hround ih =>
    rw [ih, forRounds_round hcancel hset hbody, afterRound, hround]

end

/-! ## Into a loop -/

section

variable (out : Outside W)

/-- A loop, evaluated from `m` inside `frames`, waits for its body, which is evaluated
from `s`; `rest` are the rounds that follow. -/
inductive EntersBody : Nat → Command → Machine W → List Frame → ExitStatus →
    (ExitStatus → ShellM W LoopEnd) → Command → Machine W → Prop where
  | whileBody {n k : Nat} {until_ : Bool} {cond body : Command} {last_status status : ExitStatus}
      {m t u v s : Machine W} (h : Starts out (whileCommand until_ cond body) m t)
      (hround : WhileAt out (evalCommand out n) until_ cond body n t.inLoop (k + 1) last_status u)
      (hcancel : checkCancel out u = some (.ok (), v))
      (hcond : evalCondition (evalCommand out n cond) v = some (.ok status, s))
      (hgo : (status.success == until_) = false) :
      EntersBody n (whileCommand until_ cond body) m t.frames last_status
        (whileRounds out (evalCommand out n) until_ cond body k) body s
  | forBody {n : Nat} {var value : Text} {words : Option (List Word)} {body : Command}
      {values rest : List Text} {last_status : ExitStatus} {m t u v w s : Machine W}
      (h : Starts out (.For var words body) m t)
      (hwords : forWords out (evalCommand out n) n words t = some (.ok values, u))
      (hround : ForAt out (evalCommand out n) var body values u.inLoop (value :: rest) last_status v)
      (hcancel : checkCancel out v = some (.ok (), w))
      (hset : setShell var value w = some (.ok (.ok ()), s)) :
      EntersBody n (.For var words body) m u.frames last_status
        (forRounds out (evalCommand out n) var body rest) body s

/-- A loop waits for its condition, which is evaluated from `s.inCondition`. -/
inductive EntersCondition : Nat → Command → Machine W → List Frame → Command → Machine W → Prop where
  | intro {n k : Nat} {until_ : Bool} {cond body : Command} {last_status : ExitStatus}
      {m t u s : Machine W} (h : Starts out (whileCommand until_ cond body) m t)
      (hround : WhileAt out (evalCommand out n) until_ cond body n t.inLoop (k + 1) last_status u)
      (hcancel : checkCancel out u = some (.ok (), s)) :
      EntersCondition n (whileCommand until_ cond body) m t.frames cond s

variable {out} {n : Nat} {cmd body : Command} {m s t v : Machine W} {frames : List Frame}
  {last_status : ExitStatus} {rest : ExitStatus → ShellM W LoopEnd} {e : ShellError}

theorem Starts.while_run {until_ cond body}
    (h : Starts out (whileCommand until_ cond body) m t) :
    evalCommand out (n + 1) (whileCommand until_ cond body) m =
      (restOfLoop out t.frames (whileRounds out (evalCommand out n) until_ cond body n .SUCCESS) >>=
        checkStatus (whileCommand until_ cond body)) t.inLoop := by
  have hrun : evalCommand out (n + 1) (whileCommand until_ cond body) m =
      (inLoop out (whileRounds out (evalCommand out n) until_ cond body n .SUCCESS) >>=
        checkStatus (whileCommand until_ cond body)) t := by
    cases until_ with
    | false => exact h.run nofun rfl
    | true => exact h.run nofun rfl
  rw [hrun, bind_run, bind_run, inLoop_eq]

theorem Starts.for_run {var words body} (h : Starts out (.For var words body) m t)
    (hwords : forWords out (evalCommand out n) n words t = some (.ok values, v)) :
    evalCommand out (n + 1) (.For var words body) m =
      (restOfLoop out v.frames (forRounds out (evalCommand out n) var body values .SUCCESS) >>=
        checkStatus (.For var words body)) v.inLoop := by
  have hrun : evalCommand out (n + 1) (.For var words body) m =
      ((forWords out (evalCommand out n) n words >>= fun values =>
        inLoop out (forRounds out (evalCommand out n) var body values .SUCCESS)) >>=
        checkStatus (.For var words body)) t := h.run nofun rfl
  rw [hrun, bind_assoc, bind_ok hwords, bind_run, bind_run, inLoop_eq]

namespace EntersBody

section

variable (h : EntersBody out n cmd m frames last_status rest body s)
include h

theorem run {result}
    (hbody : Process.attempt (evalCommand out n body) s = some (.ok result, v)) :
    evalCommand out (n + 1) cmd m =
      (restOfLoop out frames (afterRound rest last_status result) >>= checkStatus cmd) v := by
  cases h with
  | whileBody hstart hround hcancel hcond hgo =>
    rw [hstart.while_run, bind_run, bind_run]
    rw [restOfLoop_congr (hround.run.trans (whileRounds_round hcancel hcond hgo hbody))]
  | forBody hstart hwords hround hcancel hset =>
    rw [hstart.for_run hwords, bind_run, bind_run]
    rw [restOfLoop_congr (hround.run.trans (forRounds_round hcancel hset hbody))]

theorem not_leaf :
    cmd.isLeaf = false := by
  cases h with
  | whileBody => exact isLeaf_whileCommand _ _ _
  | forBody => rfl

theorem checkStatus_eq (status : ExitStatus) (t : Machine W) : checkStatus cmd status t =
      some (.ok status, t.withShell fun sh => { sh with exit_status := status }) := by
  rw [checkStatus_run]
  simp [Shell.stopsOn, h.not_leaf]

/-- `break 1` in the body ends the loop with the last status. -/
theorem breaks (hbody : evalCommand out n body s = some (.error (Flow.Break.leave 1), v)) :
    evalCommand out (n + 1) cmd m = some (.ok last_status,
      (v.outOfLoop frames).withShell fun sh => { sh with exit_status := last_status }) := by
  have hattempt : Process.attempt (evalCommand out n body) s =
      some (.ok (.error (.Break 1)), v) := by
    rw [attempt_run, hbody]
    rfl
  have hrest : restOfLoop out frames (afterRound rest last_status (.error (.Break 1))) v =
    some (.ok last_status, v.outOfLoop frames) := rfl
  rw [h.run hattempt, bind_ok hrest, h.checkStatus_eq]

/-- `continue 1` in the body goes on with the next round. -/
theorem continues (hbody : evalCommand out n body s = some (.error (Flow.Continue.leave 1), v)) :
    evalCommand out (n + 1) cmd m =
      (restOfLoop out frames (rest last_status) >>= checkStatus cmd) v := by
  have hattempt : Process.attempt (evalCommand out n body) s =
      some (.ok (.error (.Continue 1)), v) := by
    rw [attempt_run, hbody]
    rfl
  exact h.run hattempt

theorem fails {flow : Flow} {k}
    (hbody : evalCommand out n body s = some (.error (flow.leave (k + 2)), v)) :
    (Task.command (n + 1) cmd).Fails out m (flow.leave (k + 1)) (v.outOfLoop frames) := by
  have hattempt : Process.attempt (evalCommand out n body) s =
      some (.ok (.error (flow.leave (k + 2))), v) := by
    rw [attempt_run, hbody]
  have hrest : restOfLoop out frames (afterRound rest last_status (.error (flow.leave (k + 2)))) v =
      some (.error (flow.leave (k + 1)), v.outOfLoop frames) := by
    cases flow <;> rfl
  rw [Task.Fails, h.run hattempt, bind_error hrest]

end

end EntersBody

theorem EntersCondition.fails {cond} (h : EntersCondition out n cmd m frames cond s)
    (hcond : evalCommand out n cond s.inCondition = some (.error e, v)) :
    (Task.command (n + 1) cmd).Fails out m e
      (((s.outOfCondition e v).backIn frames).note (.broke .loop e)) := by
  cases h with
  | @intro k until_ cond body last_status m t u s hstart hround hcancel =>
    have hrounds : whileRounds out (evalCommand out n) until_ cond body (k + 1) last_status u =
        some (.error e, s.outOfCondition e v) := by
      rw [whileRounds, bind_ok hcancel]
      exact bind_error (evalCondition_error hcond)
    have hrest : restOfLoop out t.frames (whileRounds out (evalCommand out n) until_ cond body n
        .SUCCESS) t.inLoop =
        some (.error e, ((s.outOfCondition e v).backIn t.frames).note (.broke .loop e)) := by
      unfold restOfLoop
      rw [hround.run, hrounds]
    rw [Task.Fails, hstart.while_run, bind_error hrest]

end

/-! ## All that is being evaluated -/

section

variable (out : Outside W)

/-- From the first task, evaluated from the first machine, down to the last one, all in
one shell environment. The list has one entry for each loop in between, the innermost
first: whether the loop is evaluating its body. The function is what is undone when a
jump that names `k` loops comes through. -/
inductive Chain : Task → Machine W → List Bool → (Flow → Nat → Machine W → Machine W) →
    Task → Machine W → Prop where
  | refl (task : Task) (m : Machine W) : Chain task m [] (fun _ _ v => v) task m
  | enter {task inner last : Task} {m s t : Machine W} {bodies : List Bool}
      {undo : ShellError → Machine W → Machine W} {undos : Flow → Nat → Machine W → Machine W}
      (h : Enters out task m undo inner s) (hrest : Chain inner s bodies undos last t) :
      Chain task m bodies
        (fun flow k v => undo (flow.leave (k - bodies.count true)) (undos flow k v)) last t
  | body {n : Nat} {cmd body : Command} {last : Task} {m s t : Machine W} {frames : List Frame}
      {last_status : ExitStatus} {rest : ExitStatus → ShellM W LoopEnd} {bodies : List Bool}
      {undos : Flow → Nat → Machine W → Machine W}
      (h : EntersBody out n cmd m frames last_status rest body s)
      (hrest : Chain (.command n body) s bodies undos last t) :
      Chain (.command (n + 1) cmd) m (bodies ++ [true])
        (fun flow k v => (undos flow k v).outOfLoop frames) last t
  | condition {n : Nat} {cmd cond : Command} {last : Task} {m s t : Machine W}
      {frames : List Frame} {bodies : List Bool} {undos : Flow → Nat → Machine W → Machine W}
      (h : EntersCondition out n cmd m frames cond s)
      (hrest : Chain (.command n cond) s.inCondition bodies undos last t) :
      Chain (.command (n + 1) cmd) m (bodies ++ [false])
        (fun flow k v => ((s.outOfCondition (flow.leave (k - bodies.count true))
            (undos flow k v)).backIn frames).note
          (.broke .loop (flow.leave (k - bodies.count true)))) last t

end

namespace Chain

variable {out : Outside W} {task last : Task} {m t v : Machine W} {bodies : List Bool}
  {undos : Flow → Nat → Machine W → Machine W}

/-- **Where a jump goes**: it comes through every construct, and each loop that is
evaluating its body, and no other, takes one from what it names. -/
theorem fails {flow : Flow} {k} (h : Chain out task m bodies undos last t)
    (hk : bodies.count true < k) (he : last.Fails out t (flow.leave k) v) :
    task.Fails out m (flow.leave (k - bodies.count true)) (undos flow k v) := by
  induction h with
  | refl => exact he
  | enter hinto _ ih => exact hinto.fails (ih hk he)
  | @body n cmd body last m s t frames last_status rest bodies undos hinto _ ih =>
    rw [count_append, count_singleton_self] at hk ⊢
    obtain ⟨j, hj⟩ : ∃ j, k - bodies.count true = j + 2 :=
      ⟨k - bodies.count true - 2, by omega⟩
    have hbody := ih (by omega) he
    rw [hj] at hbody
    have hout := hinto.fails hbody
    rwa [show k - (bodies.count true + 1) = j + 1 by omega]
  | condition hinto _ ih =>
    rw [count_append, show [false].count true = 0 from rfl, Nat.add_zero] at hk ⊢
    exact hinto.fails (ih hk he)

theorem split (h : Chain out task m bodies undos last t) (hi : bodies[i]? = some true) :
    ∃ n cmd m' frames last_status rest body s outer inner,
      Chain out task m (bodies.drop (i + 1)) outer (.command (n + 1) cmd) m' ∧
        EntersBody out n cmd m' frames last_status rest body s ∧
        Chain out (.command n body) s (bodies.take i) inner last t := by
  induction h with
  | refl => simp at hi
  | enter hinto _ ih =>
    obtain ⟨n, cmd, m', frames, last_status, rest, body, s, outer, inner, houter, hbody, hinner⟩ :=
      ih hi
    exact ⟨n, cmd, m', frames, last_status, rest, body, s, _, inner, .enter hinto houter, hbody,
      hinner⟩
  | @body n cmd body last m s t frames last_status rest bodies undos hinto hrest ih =>
    by_cases hlt : i < bodies.length
    · rw [getElem?_append_left hlt] at hi
      obtain ⟨n', cmd', m', frames', status', rest', body', s', outer, inner, houter, hbody,
        hinner⟩ := ih hi
      rw [drop_append_of_le_length hlt, take_append_of_le_length hlt.le]
      exact ⟨n', cmd', m', frames', status', rest', body', s', _, inner, .body hinto houter, hbody,
        hinner⟩
    · have hlen := (List.getElem?_eq_some_iff.mp hi).1
      rw [length_append, length_singleton] at hlen
      have heq : i = bodies.length := by omega
      rw [heq, drop_eq_nil_of_le (by simp), take_left]
      exact ⟨n, cmd, m, frames, last_status, rest, body, s, _, undos, .refl _ _, hinto, hrest⟩
  | @condition n cmd cond last m s t frames bodies undos hinto hrest ih =>
    have hlt : i < bodies.length := by
      by_contra hge
      rw [getElem?_append_right (by omega)] at hi
      cases hsub : i - bodies.length with
      | zero => rw [hsub] at hi; cases hi
      | succ j => rw [hsub] at hi; cases hi
    rw [getElem?_append_left hlt] at hi
    obtain ⟨n', cmd', m', frames', status', rest', body', s', outer, inner, houter, hbody,
      hinner⟩ := ih hi
    rw [drop_append_of_le_length hlt, take_append_of_le_length hlt.le]
    exact ⟨n', cmd', m', frames', status', rest', body', s', _, inner, .condition hinto houter,
      hbody, hinner⟩

end Chain

/-! ## The builtins -/

/-- How many loops the operand of `break` or `continue` names, when it is a number. -/
def jumpCount (args : List Text) : Option Nat :=
  match args.tail with
  | [] => some 1
  | arg :: _ => (parseUsize arg).filter (0 < ·)

/-- The task is about to run `break c` or `continue c`. -/
inductive Jumps (flow : Flow) (c : Nat) : Task → Prop where
  | intro {n depth : Nat} {args : List Text} {span : Span}
      (hname : Builtin.named (args.head?.getD []) = some flow.builtin)
      (hcount : jumpCount args = some c) : Jumps flow c (.builtin n (depth + 1) args span)

/-- Where the shell counts a loop, the builtins raise the jump, cut to that count. -/
theorem Jumps.fails {out : Outside W} {flow : Flow}
    (h : Jumps flow c task) (hdepth : m.shell.loop_depth ≠ 0) :
    ∃ args, task.Fails out m (flow.leave (min c m.shell.loop_depth)) (m.ran args) := by
  cases h with
  | @intro n depth args span hname hcount =>
    refine ⟨args, ?_⟩
    have hcontrol : loopControl out flow.leave args (m.ran args) =
        some (.error (flow.leave (min c m.shell.loop_depth)), m.ran args) := by
      unfold loopControl
      rw [getShell_bind, ran_shell]
      unfold jumpCount at hcount
      cases htail : args.tail with
      | nil =>
        rw [htail] at hcount
        cases hcount
        dsimp only
        rw [if_neg hdepth, show min 1 m.shell.loop_depth = 1 by omega]
        rfl
      | cons arg operands =>
        rw [htail] at hcount
        dsimp only at hcount ⊢
        cases hparse : parseUsize arg with
        | none => rw [hparse] at hcount; cases hcount
        | some number =>
          rw [hparse, Option.filter_some] at hcount
          split_ifs at hcount with hpos
          have hne : number ≠ 0 := Nat.pos_iff_ne_zero.mp (of_decide_eq_true hpos)
          obtain ⟨j, hj⟩ := Nat.exists_eq_succ_of_ne_zero hne
          rw [Option.some.injEq] at hcount
          rw [← hcount, hj]
          dsimp only
          rw [if_neg hdepth]
          rfl
    rw [Task.Fails, tryBuiltin, hname]
    cases flow with
    | Break | Continue =>
      dsimp only [Flow.builtin]
      rw [ran_bind, map_eq_pure_bind]
      exact bind_error hcontrol

theorem Jumps.pos (h : Jumps flow c task) : 0 < c := by
  cases h with
  | @intro n depth args span hname hcount =>
    unfold jumpCount at hcount
    cases htail : args.tail with
    | nil =>
      rw [htail] at hcount
      cases hcount
      exact Nat.one_pos
    | cons arg operands =>
      rw [htail] at hcount
      exact of_decide_eq_true (Option.mem_filter_iff.mp hcount).2

section

variable {out : Outside W} {task last : Task} {m t : Machine W} {bodies : List Bool}
  {undos : Flow → Nat → Machine W → Machine W}

/-- **`break` and `continue` reach the loop they name**, with `k` loops being evaluated,
the one at `min c k`, when the shell counts no further than that and these loops are
evaluating their bodies: all that is evaluated inside that loop stops with the jump, and
the loop is over, or goes on with its next round, from the machine in which each
construct that was left has undone its redirections and its scope. -/
theorem jump_reaches_named_loop {flow : Flow} {c : Nat}
    (hchain : Chain out task m bodies undos last t) (hjump : Jumps flow c last)
    (hloops : bodies ≠ []) (hcount : min c t.shell.loop_depth = min c bodies.length)
    (hbodies : ∀ b ∈ bodies.take (min c bodies.length), b = true) :
    ∃ args n loop m' frames last_status rest body s outer inner,
      Chain out task m (bodies.drop (min c bodies.length)) outer (.command (n + 1) loop) m' ∧
      EntersBody out n loop m' frames last_status rest body s ∧
      Chain out (.command n body) s (bodies.take (min c bodies.length - 1)) inner last t ∧
      (∀ inside m₁ before undos₁ after undos₂,
        Chain out (.command n body) s before undos₁ inside m₁ →
        Chain out inside m₁ after undos₂ last t →
        after ++ before = bodies.take (min c bodies.length - 1) →
        inside.Fails out m₁ (flow.leave (min c bodies.length - after.length))
          (undos₂ flow (min c bodies.length) (t.ran args))) ∧
      evalCommand out n body s =
        some (.error (flow.leave 1), inner flow (min c bodies.length) (t.ran args)) ∧
      (flow = .Break → evalCommand out (n + 1) loop m' = some (.ok last_status,
        ((inner flow (min c bodies.length) (t.ran args)).outOfLoop frames).withShell fun sh =>
          { sh with exit_status := last_status })) ∧
      (flow = .Continue → evalCommand out (n + 1) loop m' =
        (restOfLoop out frames (rest last_status) >>= checkStatus loop)
          (inner flow (min c bodies.length) (t.ran args))) := by
  have hc := hjump.pos
  have hlen := length_pos_iff.mpr hloops
  obtain ⟨k, hk⟩ : ∃ k, min c bodies.length = k + 1 := ⟨min c bodies.length - 1, by omega⟩
  rw [hk] at hcount hbodies ⊢
  rw [Nat.add_sub_cancel]
  -- the jump is raised with the number of the named loop
  obtain ⟨args, hraised⟩ : ∃ args,
      last.Fails out t (flow.leave (min c t.shell.loop_depth)) (t.ran args) :=
    hjump.fails (by omega)
  rw [hcount] at hraised
  have hnamed : bodies[k]? = some true := by
    have hlt : k < bodies.length := by omega
    rw [getElem?_eq_getElem hlt]
    refine congrArg some (hbodies _ ?_)
    rw [mem_take_iff_getElem]
    exact ⟨k, by omega, rfl⟩
  obtain ⟨n, loop, m', frames, last_status, rest, body, s, outer, inner, houter, hbody, hinner⟩ :=
    hchain.split hnamed
  have hcounted {list : List Bool} (h : list <+: bodies.take k) :
      list.count true = list.length ∧ list.length ≤ k := by
    have hwithin : list <+: bodies.take (k + 1) := h.trans (take_prefix_take_left (by omega))
    have hle := h.length_le
    rw [length_take] at hle
    exact ⟨count_eq_length.mpr fun b hb => (hbodies b (hwithin.subset hb)).symm, by omega⟩
  have hfails {inside : Task} {m₁ : Machine W} {after : List Bool}
      {undos₂ : Flow → Nat → Machine W → Machine W} (h : Chain out inside m₁ after undos₂ last t)
      (hafter : after <+: bodies.take k) :
      inside.Fails out m₁ (flow.leave (k + 1 - after.length))
        (undos₂ flow (k + 1) (t.ran args)) := by
    obtain ⟨htrue, hle⟩ := hcounted hafter
    have hthrough := h.fails (k := k + 1) (by omega) hraised
    rwa [htrue] at hthrough
  have hlenk : (bodies.take k).length = k := by
    rw [length_take]
    omega
  have hlast : evalCommand out n body s =
      some (.error (flow.leave 1), inner flow (k + 1) (t.ran args)) := by
    have hall := hfails hinner prefix_rfl
    rwa [hlenk, Nat.add_sub_cancel_left] at hall
  refine ⟨args, n, loop, m', frames, last_status, rest, body, s, outer, inner, houter, hbody, hinner,
    ?_, hlast, ?_, ?_⟩
  · intro inside m₁ before undos₁ after undos₂ _ hafter happend
    exact hfails hafter ⟨before, happend⟩
  · rintro rfl
    exact hbody.breaks hlast
  · rintro rfl
    exact hbody.continues hlast

end

/-! ## A loop that is left -/

/-- `for i in a; do break; done` -/
def breakOnce : Command :=
  .For ['i'] (some [⟨[.Literal [0x61]]⟩]) (.ofWords ["break".toList])

/-- The machine in which the loop of `breakOnce` is counted. -/
def onceCounted : Machine Unit :=
  (Machine.idle.withShell fun sh => { sh with ev_exit := false }).inLoop

/-- The machine the body of `breakOnce` is evaluated from. -/
def onceBody : Machine Unit := (setShell ['i'] ['a'] onceCounted).elim onceCounted (·.2)

theorem chain_breakOnce : ∃ undos t, Chain .idle (.command 9 breakOnce) .idle [true] undos
    (.builtin 7 1 ["break".toList] {}) t ∧ t.shell.loop_depth = 1 := by
  have hloop : Starts .idle breakOnce .idle
    (Machine.idle.withShell fun sh => { sh with ev_exit := false }) := ⟨_, rfl, rfl, rfl⟩
  have hwords : forWords .idle (evalCommand .idle 8) 8 (some [⟨[.Literal [0x61]]⟩])
      (Machine.idle.withShell fun sh => { sh with ev_exit := false }) =
    some (.ok [['a']], Machine.idle.withShell fun sh => { sh with ev_exit := false }) := rfl
  have hset : setShell ['i'] ['a'] onceCounted = some (.ok (.ok ()), onceBody) := rfl
  have hsimple : Starts .idle (.ofWords ["break".toList]) onceBody onceBody := ⟨_, rfl, rfl, rfl⟩
  have hargs : expandArgs .idle (evalCommand .idle 7) 7
      [⟨[.Literal (ShellBytes.ofText "break".toList)]⟩]
      ((onceBody.note (.begins {})).inside .simple) =
    some (.ok ["break".toList], (onceBody.note (.begins {})).inside .simple) := rfl
  have hready : prepareWords .idle (evalCommand .idle 7) 7 [] ["break".toList] [] {}
      ((onceBody.note (.begins {})).inside .simple) =
    some (.ok [], ((onceBody.note (.begins {})).inside .simple).note
      (.accepts ["break".toList])) := rfl
  exact ⟨_, _, .body (.forBody hloop hwords .first rfl hset)
    (.enter (.simple hsimple hargs (by decide) rfl hready) (.enter .builtin (.refl _ _))), rfl⟩

theorem jump_reaches_named_loop_once :
    ∃ n loop m' frames last_status rest body s t,
      EntersBody .idle n loop m' frames last_status rest body s ∧
        evalCommand .idle (n + 1) loop m' = some (.ok last_status, t) := by
  obtain ⟨undos, t, hchain, hdepth⟩ := chain_breakOnce
  have hjump : Jumps .Break 1 (.builtin 7 (0 + 1) ["break".toList] {}) := .intro (by decide) rfl
  obtain ⟨args, n, loop, m', frames, last_status, rest, body, s, outer, inner, -, hbody, -, -, -,
    hbreak, -⟩ :=
    jump_reaches_named_loop hchain hjump (by decide) (by rw [hdepth]; rfl) (by decide)
  exact ⟨n, loop, m', frames, last_status, rest, body, s, _, hbody, hbreak rfl⟩

/-! ## A jump out of a condition -/

/-- `for i in a b; do while break; do :; done; done` -/
def breakInCondition : Command :=
  .For ['i'] (some [⟨[.Literal [0x61]]⟩, ⟨[.Literal [0x62]]⟩])
    (.While (.ofWords ["break".toList]) (.ofWords [":".toList]))

/-- The `break` of the condition of the inner loop leaves that loop as an error, and ends
the outer loop in its first round. -/
theorem break_in_condition_ends_outer_loop :
    (evalCommand .idle 20 (.While (.ofWords ["break".toList]) (.ofWords [":".toList])) .idle).map
        (·.1) = some (.error (.Break 1)) ∧
      (evalCommand .idle 20 breakInCondition .idle).map
        (fun r => (r.1, r.2.shell.vars.getShell ['i'])) = some (.ok .SUCCESS, some ['a']) := by
  decide +kernel

end Ish.Epsh
