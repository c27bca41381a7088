import Mathlib.Algebra.BigOperators.Group.Finset.Basic
import Mathlib.Algebra.Order.BigOperators.Group.Finset
import Mathlib.Data.Fintype.Basic

/-!
# Threads — weights of all threads together

A machine of threads keeps a program counter for each. What its counters stand
for is often a weight of the program counters, added up over the threads: one
step of one thread changes the sum by the weight of that thread alone.
-/

namespace Ish.Lib.Threads

variable {T P M : Type} [Fintype T] [AddCommMonoid M]

/-- The weights of all threads. -/
def total (weight : T → P → M) (pcs : T → P) : M := ∑ t, weight t (pcs t)

variable {weight : T → P → M} {pcs pcs' : T → P} {t : T} {p : P}

/-- Threads that move without a change of weight. -/
theorem total_congr (h : ∀ t, weight t (pcs' t) = weight t (pcs t)) :
    total weight pcs' = total weight pcs :=
  Finset.sum_congr rfl fun t _ => h t

theorem total_zero (h : ∀ t, weight t (pcs t) = 0) : total weight pcs = 0 :=
  Finset.sum_eq_zero fun t _ => h t

/-- **One thread moves**: its old weight gives way to its new one. -/
theorem total_update [DecidableEq T] (weight : T → P → M) (pcs : T → P) (t : T) (p : P) :
    total weight (Function.update pcs t p) + weight t (pcs t) = total weight pcs + weight t p := by
  have hrest : ∑ u ∈ Finset.univ.erase t, weight u (Function.update pcs t p u) =
      ∑ u ∈ Finset.univ.erase t, weight u (pcs u) := by
    apply Finset.sum_congr rfl
    intro u hu
    rw [Function.update_of_ne (Finset.ne_of_mem_erase hu)]
  rw [total, total, ← Finset.add_sum_erase _ _ (Finset.mem_univ t),
    ← Finset.add_sum_erase _ (fun u => weight u (pcs u)) (Finset.mem_univ t), hrest,
    Function.update_self]
  ac_rfl

/-! ## Counts -/

variable {count : T → P → Nat}

theorem le_total (count : T → P → Nat) (pcs : T → P) (t : T) : count t (pcs t) ≤ total count pcs :=
  Finset.single_le_sum (f := fun u => count u (pcs u)) (fun _ _ => Nat.zero_le _)
    (Finset.mem_univ t)

theorem total_mono (h : ∀ t, count t (pcs' t) ≤ count t (pcs t)) :
    total count pcs' ≤ total count pcs :=
  Finset.sum_le_sum fun t _ => h t

theorem total_update_lt [DecidableEq T] (h : count t p < count t (pcs t)) :
    total count (Function.update pcs t p) < total count pcs := by
  have hmove := total_update count pcs t p
  omega

theorem exists_of_total (h : 0 < total count pcs) : ∃ t, 0 < count t (pcs t) := by
  by_contra hnone
  rw [not_exists] at hnone
  have hzero : total count pcs = 0 := total_zero fun t => Nat.eq_zero_of_not_pos (hnone t)
  rw [hzero] at h
  exact Nat.lt_irrefl 0 h

end Ish.Lib.Threads
