import Mathlib.Order.Defs.Unbundled

/-!
# Computations of a process

A computation on a state that returns, fails, ends its process or runs for ever.
A failure can be caught; the end of the process cannot. Rules for the relation
between the state a computation starts in and the one it stops in.
-/

namespace Ish.Lib

/-- How a computation stops. -/
inductive Ending (X E α : Type) where
  | ok (value : α)
  | error (e : E)
  | quit (status : X)
deriving DecidableEq

/-- How a computation stops, without what it returns. -/
def Ending.void {X E α : Type} : Ending X E α → Ending X E Unit
  | .ok _ => .ok ()
  | .error e => .error e
  | .quit q => .quit q

/-- From a state, how it stops and in which state; `none` if it does not. -/
def Process (X E S α : Type) := S → Option (Ending X E α × S)

namespace Process

variable {X E S α β : Type} {s t : S}

instance : Monad (Process X E S) where
  pure a s := some (.ok a, s)
  bind x f s :=
    match x s with
    | some (.ok a, t) => f a t
    | some (.error e, t) => some (.error e, t)
    | some (.quit q, t) => some (.quit q, t)
    | none => none

instance : MonadStateOf S (Process X E S) where
  get s := some (.ok s, s)
  set t _ := some (.ok (), t)
  modifyGet f s := some (.ok (f s).1, (f s).2)

def fail (e : E) : Process X E S α := fun s => some (.error e, s)

/-- End the process. -/
def quit (status : X) : Process X E S α := fun s => some (.quit status, s)

def diverge : Process X E S α := fun _ => none

/-- The result as a value, when there is one. -/
def attempt (x : Process X E S α) : Process X E S (Except E α) := fun s =>
  match x s with
  | some (.ok a, t) => some (.ok (.ok a), t)
  | some (.error e, t) => some (.ok (.error e), t)
  | some (.quit q, t) => some (.quit q, t)
  | none => none

def ofExcept : Except E α → Process X E S α
  | .ok a => pure a
  | .error e => fail e

@[simp] theorem pure_run (a : α) : (pure a : Process X E S α) s = some (.ok a, s) := rfl

@[simp] theorem get_run : (get : Process X E S S) s = some (.ok s, s) := rfl

@[simp] theorem modify_run (f : S → S) :
    (modify f : Process X E S PUnit) s = some (.ok ⟨⟩, f s) := rfl

@[simp] theorem fail_run (e : E) : (fail e : Process X E S α) s = some (.error e, s) := rfl

@[simp] theorem quit_run (q : X) : (quit q : Process X E S α) s = some (.quit q, s) := rfl

theorem bind_run (x : Process X E S α) (f : α → Process X E S β) (s : S) :
    (x >>= f) s = match x s with
      | some (.ok a, t) => f a t
      | some (.error e, t) => some (.error e, t)
      | some (.quit q, t) => some (.quit q, t)
      | none => none := rfl

theorem attempt_run (x : Process X E S α) (s : S) :
    attempt x s = match x s with
      | some (.ok a, t) => some (.ok (.ok a), t)
      | some (.error e, t) => some (.ok (.error e), t)
      | some (.quit q, t) => some (.quit q, t)
      | none => none := rfl

/-- What follows has the error of `x` for a value. -/
theorem attempt_bind_run (x : Process X E S α) (f : Except E α → Process X E S β) (s : S) :
    (attempt x >>= f) s = match x s with
      | some (.ok a, t) => f (.ok a) t
      | some (.error e, t) => f (.error e) t
      | some (.quit q, t) => some (.quit q, t)
      | none => none := by
  rw [bind_run, attempt_run]
  rcases x s with _ | ⟨_ | _ | _, _⟩ <;> rfl

instance : LawfulMonad (Process X E S) := by
  refine LawfulMonad.mk' _ ?_ ?_ ?_
  · intro α x
    funext s
    change (x >>= pure) s = x s
    rw [bind_run]
    rcases x s with _ | ⟨_ | _ | _, _⟩ <;> rfl
  · intro α β a f
    rfl
  · intro α β γ x f g
    funext s
    rw [bind_run, bind_run, bind_run]
    rcases x s with _ | ⟨_ | _ | _, _⟩ <;> rfl

variable {x : Process X E S α} {f : α → Process X E S β}

theorem bind_ok {a}
    (h : x s = some (.ok a, t)) : (x >>= f) s = f a t := by
  rw [bind_run, h]

theorem bind_error {e}
    (h : x s = some (.error e, t)) : (x >>= f) s = some (.error e, t) := by
  rw [bind_run, h]

theorem ofExcept_attempt (x : Process X E S α) : (attempt x >>= ofExcept) = x := by
  funext s
  rw [bind_run]
  unfold attempt
  rcases x s with _ | ⟨_ | _ | _, _⟩ <;> rfl

/-! ## The states before and after -/

/-- A relation between the states before and after, for every way to stop, that
holds of steps one after the other. -/
class Sequential (R : Ending X E Unit → S → S → Prop) : Prop where
  refl : ∀ s, R (.ok ()) s s
  any : ∀ e s t, R (.ok ()) s t → R e s t
  seq : ∀ e s t u, R (.ok ()) s t → R e t u → R e s u

/-- Catching an error does not undo what is related. -/
class Catching (R : Ending X E Unit → S → S → Prop) : Prop extends Sequential R where
  caught : ∀ e s t, R (.error e) s t → R (.ok ()) s t

/-- The relation that does not depend on how a computation stops. -/
def always (P : S → S → Prop) : Ending X E Unit → S → S → Prop := fun _ => P

instance {P : S → S → Prop} [IsPreorder S P] :
    Catching (always P : Ending X E Unit → S → S → Prop) where
  refl s := Std.Refl.refl (r := P) s
  any _ _ _ h := h
  seq _ s t u hst htu := IsTrans.trans (r := P) s t u hst htu
  caught _ _ _ h := h

/-- However `x` stops, the states before and after are related. -/
def Keeps (R : Ending X E Unit → S → S → Prop) (x : Process X E S α) : Prop :=
  ∀ s e t, x s = some (e, t) → R e.void s t

/-- What `y` does after an error `e`, together with what came before the error. -/
def Handles (R : Ending X E Unit → S → S → Prop) (e : E) (y : Process X E S α) : Prop :=
  ∀ s t f u, R (.error e) s t → y t = some (f, u) → R f.void s u

namespace Keeps

variable {R : Ending X E Unit → S → S → Prop} {x : Process X E S α} {f : α → Process X E S β}

theorem returns (h : Keeps R x) {a} (hx : x s = some (.ok a, t)) : R (.ok ()) s t :=
  h s _ t hx

theorem fails (h : Keeps R x) {e} (hx : x s = some (.error e, t)) : R (.error e) s t :=
  h s _ t hx

@[grind ←]
theorem diverge : Keeps R (diverge : Process X E S α) := nofun

theorem ite {p : Prop} [Decidable p] {y} (hx : p → Keeps R x)
    (hy : ¬p → Keeps R y) : Keeps R (if p then x else y) := by
  split
  · exact hx ‹_›
  · exact hy ‹_›

theorem modify {f} (h : ∀ s, R (.ok ()) s (f s)) :
    Keeps R (modify f : Process X E S PUnit) := by
  intro s e t ht
  cases ht
  exact h s

variable [Sequential R]

@[grind ←]
theorem pure (a : α) : Keeps R (pure a : Process X E S α) := by
  intro s e t h
  cases h
  have hs : R (.ok ()) s s := Sequential.refl s
  exact hs

@[grind ←]
theorem fail (e : E) : Keeps R (fail e : Process X E S α) := by
  intro s _ t h
  cases h
  have hs : R (.ok ()) s s := Sequential.refl s
  exact Sequential.any _ s s hs

@[grind ←]
theorem quit (q : X) : Keeps R (quit q : Process X E S α) := by
  intro s _ t h
  cases h
  have hs : R (.ok ()) s s := Sequential.refl s
  exact Sequential.any _ s s hs

@[grind ←]
theorem get : Keeps R (get : Process X E S S) := by
  intro s _ t h
  cases h
  have hs : R (.ok ()) s s := Sequential.refl s
  exact hs

@[grind ←]
theorem ofExcept (r : Except E α) : Keeps R (ofExcept r : Process X E S α) := by
  cases r with
  | ok a => exact .pure a
  | error e => exact .fail e

@[grind ←]
theorem bind (hx : Keeps R x) (hf : ∀ a, Keeps R (f a)) : Keeps R (x >>= f) := by
  intro s e t h
  rw [bind_run] at h
  split at h
  · next a u hr => exact Sequential.seq (R := R) _ s u t (hx.returns hr) (hf a u e t h)
  · next hr =>
    cases h
    exact hx s _ _ hr
  · next hr =>
    cases h
    exact hx s _ _ hr
  · cases h

@[grind ←]
theorem map {g : α → β} (hx : Keeps R x) : Keeps R (g <$> x) := by
  rw [map_eq_pure_bind]
  exact .bind hx fun _ => .pure _

/-- Catch the errors of `x`: what follows has to answer for them. -/
theorem attempt_bind {g : Except E α → Process X E S β} (hx : Keeps R x)
    (hok : ∀ a, Keeps R (g (.ok a))) (herror : ∀ e, Handles R e (g (.error e))) :
    Keeps R (attempt x >>= g) := by
  intro s e t h
  rw [attempt_bind_run] at h
  split at h
  · next a u hr => exact Sequential.seq (R := R) _ s u t (hx.returns hr) (hok a u e t h)
  · next e' u hr => exact herror e' s u e t (hx.fails hr) h
  · next hr =>
    cases h
    exact hx s _ _ hr
  · cases h

end Keeps

theorem Keeps.attempt {R} [Catching R]
    (hx : Keeps R x) : Keeps R (attempt x) := by
  intro s e t h
  rw [attempt_run] at h
  split at h
  · next hr =>
    cases h
    exact hx.returns hr
  · next e' _ hr =>
    cases h
    exact Catching.caught e' s _ (hx.fails hr)
  · next hr =>
    cases h
    exact hx s _ _ hr
  · cases h

attribute [grind ←] Keeps.attempt

theorem Keeps.weaken {R R'}
    (h : ∀ e s t, R e s t → R' e s t) (hx : Keeps R x) : Keeps R' x :=
  fun s e t ht => h e.void s t (hx s e t ht)

namespace Handles

variable {R : Ending X E Unit → S → S → Prop} {e : E}

theorem fail : Handles R e (fail e : Process X E S α) := by
  intro s t f v h hu
  cases hu
  exact h

/-- Steps that cannot fail and leave what is related as it is. -/
theorem bind {Q : S → S → Prop}
    (hx : ∀ s e t, x s = some (e, t) → (∃ a, e = .ok a) ∧ Q s t)
    (hQ : ∀ s t u, R (.error e) s t → Q t u → R (.error e) s u)
    (hf : ∀ a, Handles R e (f a)) : Handles R e (x >>= f) := by
  intro s t g v hs hv
  rw [bind_run] at hv
  cases hr : x t with
  | none => rw [hr] at hv; cases hv
  | some p =>
    obtain ⟨ending, u⟩ := p
    obtain ⟨⟨a, rfl⟩, htu⟩ := hx t ending u hr
    rw [hr] at hv
    exact hf a s u g v (hQ s t u hs htu) hv

theorem caught [Sequential R] {y : Process X E S α}
    (h : ∀ s t, R (.error e) s t → R (.ok ()) s t) (hy : Keeps R y) : Handles R e y :=
  fun s t f v hs hv => Sequential.seq (R := R) _ s t v (h s t hs) (hy t f v hv)

end Handles

/-! ## What is returned -/

theorem bind_eq_ok {b} (h : (x >>= f) s = some (.ok b, t)) :
    ∃ a u, x s = some (.ok a, u) ∧ f a u = some (.ok b, t) := by
  rw [bind_run] at h
  split at h
  · next a u hr => exact ⟨a, u, hr, h⟩
  · cases h
  · cases h
  · cases h

/-- Every value that `x` returns satisfies `p`. -/
def Returns (p : α → Prop) (x : Process X E S α) : Prop := ∀ s a t, x s = some (.ok a, t) → p a

namespace Returns

variable {p : α → Prop} {q : β → Prop}

theorem pure {a} (h : p a) : Returns p (Pure.pure a : Process X E S α) := by
  intro s b t hb
  cases hb
  exact h

theorem fail (e : E) : Returns p (Process.fail e : Process X E S α) := by
  intro s a t h
  cases h

theorem diverge : Returns p (Process.diverge : Process X E S α) := by
  intro s a t h
  cases h

/-- Whatever `x` returns. -/
theorem bind (hf : ∀ a, Returns q (f a)) : Returns q (x >>= f) := by
  intro s b t h
  obtain ⟨a, u, -, hb⟩ := bind_eq_ok h
  exact hf a u b t hb

theorem andThen (hx : Returns p x)
    (hf : ∀ a, p a → Returns q (f a)) : Returns q (x >>= f) := by
  intro s b t h
  obtain ⟨a, u, ha, hb⟩ := bind_eq_ok h
  exact hf a (hx s a u ha) u b t hb

theorem map {g} (hx : Returns p x) (h : ∀ a, p a → q (g a)) : Returns q (g <$> x) := by
  rw [map_eq_pure_bind]
  exact andThen hx fun a ha => .pure (h a ha)

/-- What is true of all values. -/
theorem of_forall (h : ∀ a, p a) (x : Process X E S α) : Returns p x := fun _ a _ _ => h a

theorem ite {c : Prop} [Decidable c] {x y : Process X E S α} (hx : c → Returns p x)
    (hy : ¬c → Returns p y) : Returns p (if c then x else y) := by
  split
  · exact hx ‹_›
  · exact hy ‹_›

end Returns

end Process

end Ish.Lib
