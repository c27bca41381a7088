import Mathlib.Algebra.GroupWithZero.Nat
import Mathlib.Data.List.Basic

/-!
# Transducers — machines that read a list and write a list

A transducer reads one item after another; the state it is in decides what it
writes for an item. Two runs that begin in different states may fall into the
same state. From there on they write the same, so they can differ in what is
read before that point only.
-/

namespace Ish.Lib

structure Transducer (σ α β : Type) where
  next : σ → α → σ
  out : σ → α → List β

namespace Transducer

variable {σ α β : Type} (machine : Transducer σ α β)

/-- The state after `items`. -/
def after (state : σ) (items : List α) : σ :=
  items.foldl machine.next state

/-- What is written for `items`. -/
def emit : σ → List α → List β
  | _, [] => []
  | state, item :: items => machine.out state item ++ emit (machine.next state item) items

@[simp] theorem after_nil (state : σ) : machine.after state [] = state := rfl

@[simp] theorem after_cons (state : σ) (item : α) (items : List α) :
    machine.after state (item :: items) = machine.after (machine.next state item) items := rfl

@[simp] theorem emit_nil (state : σ) : machine.emit state [] = [] := rfl

@[simp] theorem emit_cons (state : σ) (item : α) (items : List α) :
    machine.emit state (item :: items) =
      machine.out state item ++ machine.emit (machine.next state item) items := rfl

theorem after_append (state : σ) (xs ys : List α) :
    machine.after state (xs ++ ys) = machine.after (machine.after state xs) ys :=
  List.foldl_append

theorem emit_append (state : σ) (xs ys : List α) :
    machine.emit state (xs ++ ys) =
      machine.emit state xs ++ machine.emit (machine.after state xs) ys := by
  induction xs generalizing state with
  | nil => rfl
  | cons x xs ih => simp [ih]

theorem forall_mem_emit {p : β → Prop} (h : ∀ state item, ∀ b ∈ machine.out state item, p b)
    (state : σ) (items : List α) : ∀ b ∈ machine.emit state items, p b := by
  induction items generalizing state with
  | nil => simp
  | cons item items ih =>
    intro b hb
    rcases List.mem_append.mp hb with hb | hb
    · exact h state item b hb
    · exact ih (machine.next state item) b hb

/-! ## Two runs -/

variable [DecidableEq σ]

/-- What is read before runs from two states are in the same state. -/
def apart : σ → σ → List α → List α
  | _, _, [] => []
  | one, other, item :: items =>
    if one = other then [] else item :: apart (machine.next one item) (machine.next other item) items

/-- What is read once they are in the same state. -/
def joined : σ → σ → List α → List α
  | _, _, [] => []
  | one, other, item :: items =>
    if one = other then item :: items
    else joined (machine.next one item) (machine.next other item) items

theorem apart_append_joined (one other : σ) (items : List α) :
    machine.apart one other items ++ machine.joined one other items = items := by
  induction items generalizing one other with
  | nil => rfl
  | cons item items ih =>
    by_cases h : one = other
    · simp [apart, joined, h]
    · simp [apart, joined, h, ih]

/-- Once in the same state, both runs write the same. -/
theorem emit_joined (one other : σ) (items : List α) :
    machine.emit (machine.after other (machine.apart one other items))
        (machine.joined one other items) =
      machine.emit (machine.after one (machine.apart one other items))
        (machine.joined one other items) := by
  induction items generalizing one other with
  | nil => rfl
  | cons item items ih =>
    by_cases h : one = other
    · simp [apart, joined, h]
    · simpa [apart, joined, h] using ih (machine.next one item) (machine.next other item)

/-- What both runs write while they are apart, before what they write together. -/
theorem emit_split (one other : σ) (items : List α) :
    let together := machine.emit (machine.after one (machine.apart one other items))
      (machine.joined one other items)
    machine.emit one items = machine.emit one (machine.apart one other items) ++ together ∧
      machine.emit other items = machine.emit other (machine.apart one other items) ++ together := by
  constructor
  · rw [← machine.emit_append, machine.apart_append_joined]
  · rw [← machine.emit_joined, ← machine.emit_append, machine.apart_append_joined]

end Transducer

end Ish.Lib
