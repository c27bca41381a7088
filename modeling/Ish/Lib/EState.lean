import Mathlib.Data.List.Basic
import Mathlib.Order.Defs.Unbundled

/-!
# Computations on a state that may fail

Rules for `EStateM`, where an error keeps the state it was raised in: running
each primitive, and taking a bind apart. Then triples about one part of the
state, with a relation for what happens to the rest of it.
-/

namespace Ish.Lib.EState

variable {E S α β : Type} {s t : S}

/-- The state a computation ends in, whether it fails or not. -/
def after : EStateM.Result E S α → S
  | .ok _ s => s
  | .error _ s => s

/-- The result of a computation as a value. -/
def attempt (x : EStateM E S α) : EStateM E S (Except E α) := fun s =>
  match x s with
  | .ok a t => .ok (.ok a) t
  | .error e t => .ok (.error e) t

/-- Go on if `p`. -/
def ensure (p : Bool) (e : E) : EStateM E S Unit := if p then pure () else throw e

@[simp] theorem pure_run (a : α) : (pure a : EStateM E S α) s = .ok a s := rfl

@[simp] theorem get_run : (get : EStateM E S S) s = .ok s s := rfl

@[simp] theorem modify_run (f : S → S) : (modify f : EStateM E S Unit) s = .ok () (f s) :=
  rfl

@[simp] theorem throw_run (e : E) : (throw e : EStateM E S α) s = .error e s := rfl

theorem ensure_run {p} (e : E) (h : p = true) :
    (ensure p e : EStateM E S Unit) s = .ok () s := by
  subst h
  rfl

variable {f : α → EStateM E S β}

theorem bind_ok {x a}
    (h : x s = .ok a t) : (x >>= f) s = f a t := by
  simp only [bind, EStateM.bind, h]

theorem bind_error {x e}
    (h : x s = .error e t) : (x >>= f) s = .error e t := by
  simp only [bind, EStateM.bind, h]

theorem bind_eq_ok {x b} :
    (x >>= f) s = .ok b t ↔ ∃ a s', x s = .ok a s' ∧ f a s' = .ok b t := by
  cases h : x s with
  | ok a s' => simp [bind_ok h]
  | error e s' => simp [bind_error h]

/-! ## Runs seen through an abstraction -/

/-- Seen through `R`, `x` takes `a` to `b` and returns `r`. -/
def Does {A : Type} (R : S → A → Prop) (x : EStateM E S α) (a : A) (r : α) (b : A) : Prop :=
  ∀ s, R s a → ∃ t, x s = .ok r t ∧ R t b

namespace Does

variable {A : Type} {R : S → A → Prop} {x : EStateM E S α} {a b c : A} {r : α} {r' : β}

theorem pure (r : α) : Does R (Pure.pure r : EStateM E S α) a r a :=
  fun s hs => ⟨s, rfl, hs⟩

theorem bind (hx : Does R x a r b) (hf : Does R (f r) b r' c) : Does R (x >>= f) a r' c := by
  intro s hs
  obtain ⟨t, ht, hb⟩ := hx s hs
  obtain ⟨u, hu, hc⟩ := hf t hb
  exact ⟨u, (bind_ok ht).trans hu, hc⟩

theorem bindGet {f : S → EStateM E S β} (hf : ∀ s, R s a → Does R (f s) a r' c) :
    Does R (get >>= f) a r' c := by
  intro s hs
  obtain ⟨t, ht, hc⟩ := hf s hs s hs
  exact ⟨t, (bind_ok get_run).trans ht, hc⟩

theorem ensure {p} (e : E) (h : p = true) : Does R (EState.ensure p e) a () a :=
  fun s hs => ⟨s, ensure_run e h, hs⟩

theorem modifyRule {f} (h : ∀ s, R s a → R (f s) b) :
    Does R (modify f : EStateM E S Unit) a () b :=
  fun s hs => ⟨f s, rfl, h s hs⟩

theorem attempt (h : Does R x a r b) : Does R (EState.attempt x) a (.ok r) b := by
  intro s hs
  obtain ⟨t, ht, hb⟩ := h s hs
  refine ⟨t, ?_, hb⟩
  rw [EState.attempt, ht]

end Does

/-! ## The states before and after -/

/-- Whether `x` fails or not, the states before and after are related. -/
def Keeps (R : S → S → Prop) (x : EStateM E S α) : Prop := ∀ s, R s (after (x s))

namespace Keeps

variable {R : S → S → Prop} {x : EStateM E S α} {f : α → EStateM E S β}

@[grind ←]
theorem modify {f} (h : ∀ s, R s (f s)) : Keeps R (modify f : EStateM E S PUnit) := h

variable [IsPreorder S R]

@[grind ←]
theorem pure (a : α) : Keeps R (pure a : EStateM E S α) := fun s => Std.Refl.refl (r := R) s

@[grind ←]
theorem throw (e : E) : Keeps R (throw e : EStateM E S α) := fun s => Std.Refl.refl (r := R) s

@[grind ←]
theorem get : Keeps R (get : EStateM E S S) := fun s => Std.Refl.refl (r := R) s

@[grind ←]
theorem bind (hx : Keeps R x) (hf : ∀ a, Keeps R (f a)) : Keeps R (x >>= f) := by
  intro s
  have hs := hx s
  cases hr : x s with
  | ok a t =>
    rw [hr] at hs
    rw [bind_ok hr]
    exact IsTrans.trans (r := R) s t _ hs (hf a t)
  | error e t =>
    rw [hr] at hs
    rw [bind_error hr]
    exact hs

end Keeps

/-! ## Triples about one part of the state -/

/-- What a triple says of a result: the rest is related by `R`, and the part
satisfies `Q` with the value, or `F` with the error. -/
def Meets {V : Type} (R : S → S → Prop) (part : S → V) (Q : α → V → Prop) (F : E → V → Prop)
    (s : S) : EStateM.Result E S α → Prop
  | .ok a t => R s t ∧ Q a (part t)
  | .error e t => R s t ∧ F e (part t)

/-- From a state whose part satisfies `P`, `x` ends as `Meets` says. -/
def Acts {V : Type} (R : S → S → Prop) (part : S → V) (P : V → Prop) (x : EStateM E S α)
    (Q : α → V → Prop) (F : E → V → Prop) : Prop :=
  ∀ s, P (part s) → Meets R part Q F s (x s)

namespace Acts

variable {V : Type} {R : S → S → Prop} {part : S → V} {P P' : V → Prop}
  {x : EStateM E S α} {Q Q' : α → V → Prop} {F F' : E → V → Prop}

theorem weaken (h : Acts R part P x Q F) (hpre : ∀ v, P' v → P v)
    (hok : ∀ a v, Q a v → Q' a v) (herror : ∀ e v, F e v → F' e v) : Acts R part P' x Q' F' := by
  intro s hs
  have hx := h s (hpre _ hs)
  cases hr : x s with
  | ok a t =>
    rw [hr] at hx
    exact ⟨hx.1, hok a _ hx.2⟩
  | error e t =>
    rw [hr] at hx
    exact ⟨hx.1, herror e _ hx.2⟩

theorem pre (h : Acts R part P x Q F) (hpre : ∀ v, P' v → P v) : Acts R part P' x Q F :=
  h.weaken hpre (fun _ _ => id) (fun _ _ => id)

theorem post (h : Acts R part P x Q F) (hok : ∀ a v, Q a v → Q' a v) : Acts R part P x Q' F :=
  h.weaken (fun _ => id) hok (fun _ _ => id)

theorem error (h : Acts R part P x Q F) (herror : ∀ e v, F e v → F' e v) : Acts R part P x Q F' :=
  h.weaken (fun _ => id) (fun _ _ => id) herror

theorem assume {φ : Prop} (h : φ → Acts R part P x Q F) : Acts R part (fun v => φ ∧ P v) x Q F :=
  fun s hs => h hs.1 s hs.2

theorem pureRule [Std.Refl R] {a} (h : ∀ v, P v → Q a v) : Acts R part P (pure a) Q F :=
  fun s hs => ⟨Std.Refl.refl s, h _ hs⟩

theorem throwRule [Std.Refl R] {e} (h : ∀ v, P v → F e v) :
    Acts R part P (throw e : EStateM E S α) Q F :=
  fun s hs => ⟨Std.Refl.refl s, h _ hs⟩

theorem bind [IsTrans S R] {G}
    (hx : Acts R part P x Q F) (hf : ∀ a, Acts R part (Q a) (f a) G F) :
    Acts R part P (x >>= f) G F := by
  intro s hs
  have hx := hx s hs
  cases hr : x s with
  | error e t =>
    rw [hr] at hx
    rw [bind_error hr]
    exact hx
  | ok a t =>
    rw [hr] at hx
    rw [bind_ok hr]
    have hf := hf a t hx.2
    cases hr' : f a t with
    | ok b u | error e u =>
      rw [hr'] at hf
      exact ⟨IsTrans.trans _ _ _ hx.1 hf.1, hf.2⟩

/-- What `attempt` leaves behind: each ending with its own condition. -/
def Either (Q : α → V → Prop) (F : E → V → Prop) : Except E α → V → Prop
  | .ok a => Q a
  | .error e => F e

theorem attempt (h : Acts R part P x Q F) : Acts R part P (attempt x) (Either Q F) F' := by
  intro s hs
  have hx := h s hs
  unfold EState.attempt
  cases hr : x s with
  | ok a t =>
    rw [hr] at hx
    exact hx
  | error e t =>
    rw [hr] at hx
    exact hx

theorem returns (h : Acts R part P x Q (fun _ _ => False)) (hs : P (part s)) :
    ∃ a t, x s = .ok a t ∧ R s t ∧ Q a (part t) := by
  have hx := h s hs
  cases hr : x s with
  | ok a t =>
    rw [hr] at hx
    exact ⟨a, t, rfl, hx.1, hx.2⟩
  | error e t =>
    rw [hr] at hx
    exact hx.2.elim

end Acts

end Ish.Lib.EState
