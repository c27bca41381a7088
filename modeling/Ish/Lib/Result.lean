import Mathlib.Data.List.Basic

/-!
# Results

Rules for computations in `Except`: taking a bind apart, and loops whose every
round succeeds.
-/

namespace Ish.Lib.Result

variable {E α β : Type}

@[simp] theorem ok_bind (a : α) (f : α → Except E β) :
    (Except.ok a >>= f) = f a := rfl

@[simp] theorem error_bind (e : E) (f : α → Except E β) :
    (Except.error e >>= f) = .error e := rfl

@[simp] theorem pure_eq_ok (a : α) : (pure a : Except E α) = .ok a := rfl

@[simp] theorem throw_eq_error (e : E) : (throw e : Except E α) = .error e := rfl

theorem bind_eq_ok {x} {f : α → Except E β} {b : β} :
    (x >>= f) = .ok b ↔ ∃ a, x = .ok a ∧ f a = .ok b := by
  cases x with
  | error e => simp
  | ok a => simp

@[simp] theorem mapError_eq_ok {F : Type} {x : Except E α} {f : E → F} {a : α} :
    x.mapError f = .ok a ↔ x = .ok a := by
  cases x <;> simp [Except.mapError]

theorem forM_eq_ok {f : α → Except E Unit} {l : List α} :
    forM l f = .ok () ↔ ∀ a ∈ l, f a = .ok () := by
  induction l with
  | nil => simp
  | cons a l ih =>
    rw [List.forM_cons, bind_eq_ok, ih]
    constructor
    · rintro ⟨⟨⟩, ha, hl⟩
      simpa using ⟨ha, hl⟩
    · intro h
      exact ⟨(), h a (by simp), fun b hb => h b (by simp [hb])⟩

/-- A loop that undoes `g` at every element undoes it on the list. -/
theorem mapM_map_eq_ok {f : β → Except E α} {g : α → β} {l : List α}
    (h : ∀ a ∈ l, f (g a) = .ok a) : (l.map g).mapM f = .ok l := by
  induction l with
  | nil => rfl
  | cons a l ih =>
    rw [List.map_cons, List.mapM_cons, h a (by simp),
      ih fun b hb => h b (by simp [hb])]
    rfl

end Ish.Lib.Result
