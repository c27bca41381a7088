import Ish.Lib.Process

/-!
# Two runs of a process

A computation mirrors another one if it returns whatever that returns, up to a relation
between the values, when the states are related before, and leaves them related. Nothing
is said of a run that fails. Two computations in lockstep stop in the same way and state,
however they do.
-/

namespace Ish.Lib.Process

variable {X E S T α β γ δ : Type}

/-- What `x` returns, `y` returns from a related state, up to `Q`. -/
def Mirrors (R : S → T → Prop) (Q : α → β → Prop) (x : Process X E S α) (y : Process X E T β) :
    Prop :=
  ∀ s s' a t, R s s' → x s = some (.ok a, t) → ∃ b t', y s' = some (.ok b, t') ∧ Q a b ∧ R t t'

namespace Mirrors

variable {R : S → T → Prop} {Q : α → β → Prop} {P : γ → δ → Prop}
  {x : Process X E S γ} {y : Process X E T δ} {f : γ → Process X E S α} {g : δ → Process X E T β}

theorem pure (h : Q a b) :
    Mirrors R Q (Pure.pure a : Process X E S α) (Pure.pure b : Process X E T β) := by
  intro s s' a' t hs ha
  cases ha
  exact ⟨b, s', rfl, h, hs⟩

theorem fail (e : E) (y : Process X E T β) : Mirrors R Q (Process.fail e : Process X E S α) y := by
  intro s s' a t _ h
  cases h

theorem diverge (y : Process X E T β) : Mirrors R Q (Process.diverge : Process X E S α) y := by
  intro s s' a t _ h
  cases h

theorem bind (hx : Mirrors R P x y) (hf : ∀ a b, P a b → Mirrors R Q (f a) (g b)) :
    Mirrors R Q (x >>= f) (y >>= g) := by
  intro s s' a t hs h
  obtain ⟨c, u, hc, h⟩ := bind_eq_ok h
  obtain ⟨d, u', hd, hcd, hu⟩ := hx s s' c u hs hc
  obtain ⟨b, t', hb, hab, ht⟩ := hf c d hcd u u' a t hu h
  exact ⟨b, t', (bind_ok hd).trans hb, hab, ht⟩

theorem ite {p q : Prop} [Decidable p] [Decidable q] {x x' : Process X E S α}
    {y y'} (hpq : p ↔ q) (hx : p → Mirrors R Q x y)
    (hx' : ¬ p → Mirrors R Q x' y') : Mirrors R Q (if p then x else x') (if q then y else y') := by
  by_cases hp : p
  · rw [if_pos hp, if_pos (hpq.mp hp)]
    exact hx hp
  · rw [if_neg hp, if_neg fun hq => hp (hpq.mpr hq)]
    exact hx' hp

/-- The states may be looked at as far as they are related. -/
theorem get_bind {f : S → Process X E S α} {g}
    (h : ∀ s s', R s s' → Mirrors R Q (f s) (g s')) : Mirrors R Q (get >>= f) (get >>= g) := by
  intro s s' a t hs ha
  exact h s s' hs s s' a t hs ha

theorem modifyGet {f g}
    (h : ∀ s s', R s s' → Q (f s).1 (g s').1 ∧ R (f s).2 (g s').2) :
    Mirrors R Q (MonadStateOf.modifyGet f : Process X E S α)
      (MonadStateOf.modifyGet g : Process X E T β) := by
  intro s s' a t hs ha
  cases ha
  exact ⟨_, _, rfl, (h s s' hs).1, (h s s' hs).2⟩

end Mirrors

/-! ## A computation and itself -/

/-- From related states `x` returns the same. -/
def Repeats (R : S → S → Prop) (x : Process X E S α) : Prop := Mirrors R Eq x x

namespace Repeats

variable {R : S → S → Prop} {x : Process X E S α} {f : α → Process X E S β}

@[grind ←]
theorem pure (a : α) : Repeats R (Pure.pure a : Process X E S α) := Mirrors.pure rfl

@[grind ←]
theorem fail (e : E) : Repeats R (Process.fail e : Process X E S α) := Mirrors.fail e _

@[grind ←]
theorem diverge : Repeats R (Process.diverge : Process X E S α) := Mirrors.diverge _

/-- Two computations that start with `x` go on with one value, which is such as `x` returns. -/
theorem returning {Q : β → γ → Prop} (hx : Repeats R x)
    (hp : Returns p x) (hf : ∀ a, p a → Mirrors R Q (f a) (g a)) :
    Mirrors R Q (x >>= f) (x >>= g) := by
  intro s s' b t hs h
  obtain ⟨a, u, ha, h⟩ := bind_eq_ok h
  obtain ⟨_, u', ha', rfl, hu⟩ := hx s s' a u hs ha
  obtain ⟨c, t', hc, hbc, ht⟩ := hf a (hp s a u ha) u u' b t hu h
  exact ⟨c, t', (bind_ok ha').trans hc, hbc, ht⟩

theorem mirrors {Q : β → γ → Prop} (hx : Repeats R x)
    (hf : ∀ a, Mirrors R Q (f a) (g a)) : Mirrors R Q (x >>= f) (x >>= g) :=
  hx.returning (.of_forall (fun _ => trivial) x) fun a _ => hf a

@[grind ←]
theorem bind (hx : Repeats R x) (hf : ∀ a, Repeats R (f a)) : Repeats R (x >>= f) := hx.mirrors hf

end Repeats

/-! ## In lockstep -/

/-- Two outcomes that differ in the values only, which are related by `Q`. -/
inductive Alike (Q : α → β → Prop) :
    Option (Ending X E α × S) → Option (Ending X E β × S) → Prop where
  | none : Alike Q none none
  | ok {a : α} {b : β} {t : S} (h : Q a b) : Alike Q (some (.ok a, t)) (some (.ok b, t))
  | error (e : E) (t : S) : Alike Q (some (.error e, t)) (some (.error e, t))
  | quit (q : X) (t : S) : Alike Q (some (.quit q, t)) (some (.quit q, t))

/-- From every state `x` and `y` do the same, up to their values. -/
def Lockstep (Q : α → β → Prop) (x : Process X E S α) (y : Process X E S β) : Prop :=
  ∀ s, Alike Q (x s) (y s)

namespace Lockstep

variable {Q : α → β → Prop} {P : γ → δ → Prop} {x : Process X E S γ} {y : Process X E S δ}
  {f : γ → Process X E S α} {g : δ → Process X E S β}

theorem pure (h : Q a b) :
    Lockstep Q (Pure.pure a : Process X E S α) (Pure.pure b) := fun _ => .ok h

theorem fail (e : E) : Lockstep Q (Process.fail e : Process X E S α) (Process.fail e) :=
  fun s => .error e s

theorem diverge : Lockstep Q (Process.diverge : Process X E S α) Process.diverge := fun _ => .none

theorem bind (hx : Lockstep P x y) (hf : ∀ a b, P a b → Lockstep Q (f a) (g b)) :
    Lockstep Q (x >>= f) (y >>= g) := by
  intro s
  rw [bind_run, bind_run]
  have hs := hx s
  generalize x s = out at hs ⊢
  generalize y s = out' at hs ⊢
  cases hs with
  | none => exact .none
  | ok h => exact hf _ _ h _
  | error e t => exact .error e t
  | quit q t => exact .quit q t

theorem map {f g} (hx : Lockstep P x y) (h : ∀ a b, P a b → Q (f a) (g b)) :
    Lockstep Q (f <$> x) (g <$> y) := by
  rw [map_eq_pure_bind, map_eq_pure_bind]
  exact bind hx fun a b hab => pure (h a b hab)

theorem ite {p : Prop} [Decidable p] {x x' : Process X E S α} {y y'}
    (hx : p → Lockstep Q x y) (hx' : ¬ p → Lockstep Q x' y') :
    Lockstep Q (if p then x else x') (if p then y else y') := by
  split
  · exact hx ‹_›
  · exact hx' ‹_›

/-- A computation and itself. -/
theorem of_returns {Q : α → α → Prop} {x : Process X E S α} (hx : Returns p x)
    (h : ∀ a, p a → Q a a) : Lockstep Q x x := by
  intro s
  cases hrun : x s with
  | none => exact .none
  | some out =>
    obtain ⟨ending, t⟩ := out
    cases ending with
    | ok a => exact .ok (h a (hx s a t hrun))
    | error e => exact .error e t
    | quit q => exact .quit q t

theorem refl (x : Process X E S α) : Lockstep Eq x x :=
  of_returns (.of_forall (fun _ => trivial) x) fun _ _ => rfl

/-- With equal values nothing differs. -/
theorem eq_of_lockstep {x y : Process X E S α} (h : Lockstep Eq x y) : x = y := by
  funext s
  have hs := h s
  generalize x s = out at hs
  generalize y s = out' at hs
  cases hs with
  | none => rfl
  | ok h => rw [h]
  | error e t => rfl
  | quit q t => rfl

end Lockstep

end Ish.Lib.Process
