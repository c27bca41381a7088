import Mathlib.Data.List.Basic
import Mathlib.Logic.Function.Basic

/-!
# Commands that touch one key each

A map changed by commands that read and write the value at one key, any of
which may fail. What a run leaves at a key is decided by the commands of that
key alone, in their order; a run succeeds when it does at every key.
-/

namespace Ish.Lib.Keyed

variable {K V C E : Type} [DecidableEq K]

/-- One command on the whole map. -/
def stepAt (key : C → K) (step : C → V → Except E V) (c : C) (s : K → V) :
    Except E (K → V) :=
  (step c (s (key c))).map (Function.update s (key c))

/-- A run on the whole map; the first failure ends it. -/
def run (key : C → K) (step : C → V → Except E V) :
    List C → (K → V) → Except E (K → V)
  | [], s => .ok s
  | c :: cs, s => (stepAt key step c s).bind (run key step cs)

/-- A run on the value of one key. -/
def localRun (step : C → V → Except E V) : List C → V → Except E V
  | [], v => .ok v
  | c :: cs, v => (step c v).bind (localRun step cs)

variable {key : C → K} {step : C → V → Except E V}

theorem localRun_append (cs ds : List C) (v : V) :
    localRun step (cs ++ ds) v = (localRun step cs v).bind (localRun step ds) := by
  induction cs generalizing v with
  | nil => rfl
  | cons c cs ih =>
    rw [List.cons_append, localRun, localRun]
    cases step c v with
    | error e => rfl
    | ok w => exact ih w

/-- A property of values that every command keeps, with success, is kept by a
run. -/
theorem localRun_inv {P : V → Prop}
    (hstep : ∀ c v, P v → ∃ w, step c v = .ok w ∧ P w) (cs : List C) {v}
    (hv : P v) : ∃ w, localRun step cs v = .ok w ∧ P w := by
  induction cs generalizing v with
  | nil => exact ⟨v, rfl, hv⟩
  | cons c cs ih =>
    obtain ⟨w, hw, hP⟩ := hstep c v hv
    obtain ⟨x, hx, hPx⟩ := ih hP
    exact ⟨x, by rw [localRun, hw]; exact hx, hPx⟩

/-- The commands that touch `k`. -/
def commandsOf (key : C → K) (k : K) (cs : List C) : List C :=
  cs.filter fun c => key c = k

@[simp] theorem commandsOf_nil (k : K) : commandsOf key k [] = [] := rfl

@[simp] theorem commandsOf_append (k : K) (cs ds : List C) :
    commandsOf key k (cs ++ ds) = commandsOf key k cs ++ commandsOf key k ds := by
  simp [commandsOf]

theorem commandsOf_eq_self {k cs} (h : ∀ c ∈ cs, key c = k) :
    commandsOf key k cs = cs := by
  simpa [commandsOf, List.filter_eq_self] using h

theorem commandsOf_eq_nil {k cs} (h : ∀ c ∈ cs, key c ≠ k) :
    commandsOf key k cs = [] := by
  simpa [commandsOf, List.filter_eq_nil_iff] using h

/-- **Runs decompose by key**: when the commands of every key succeed on that
key's value, the run succeeds and leaves exactly those values. -/
theorem run_ok {cs s t}
    (h : ∀ k, localRun step (commandsOf key k cs) (s k) = .ok (t k)) :
    run key step cs s = .ok t := by
  induction cs generalizing s with
  | nil =>
    have hst : s = t := funext fun k => by simpa [localRun] using h k
    rw [run, hst]
  | cons c cs ih =>
    have hc := h (key c)
    rw [commandsOf, List.filter_cons_of_pos (by simp), localRun] at hc
    cases hv : step c (s (key c)) with
    | error e => simp [hv, Except.bind] at hc
    | ok v =>
      rw [hv] at hc
      rw [run, stepAt, hv]
      refine ih fun k => ?_
      by_cases hk : k = key c
      · subst hk
        simpa [Except.bind, commandsOf] using hc
      · have hrest := h k
        rw [commandsOf, List.filter_cons_of_neg (by simpa using Ne.symm hk)] at hrest
        rw [Function.update_of_ne hk]
        exact hrest

theorem run_eq_ok {cs s t} (h : run key step cs s = .ok t) (k : K) :
    localRun step (commandsOf key k cs) (s k) = .ok (t k) := by
  induction cs generalizing s with
  | nil =>
    obtain rfl := Except.ok.inj h
    rfl
  | cons c cs ih =>
    rw [run, stepAt] at h
    cases hv : step c (s (key c)) with
    | error e => simp [hv, Except.map, Except.bind] at h
    | ok v =>
      rw [hv] at h
      have hrest := ih h
      by_cases hk : k = key c
      · subst hk
        rw [Function.update_self] at hrest
        rw [commandsOf, List.filter_cons_of_pos (by simp), localRun, hv]
        exact hrest
      · rw [Function.update_of_ne hk] at hrest
        rw [commandsOf, List.filter_cons_of_neg (by simpa using Ne.symm hk)]
        exact hrest

end Ish.Lib.Keyed
