import Mathlib.Algebra.GroupWithZero.Nat
import Mathlib.Data.List.Basic
import Mathlib.Order.Basic

/-!
# AVL trees

Height-balanced binary trees without stored heights: rotations, the insertion
that keeps the balance, the list a tree stands for, and the bound of the height
by the size. An insertion is guided by a predicate, which says of each label on
the way whether to go to its right.
-/

namespace Ish.Lib

open List

inductive AvlTree (α : Type) where
  | leaf
  | node (left : AvlTree α) (label : α) (right : AvlTree α)
  deriving DecidableEq, Repr

namespace AvlTree

variable {α : Type}

def height : AvlTree α → Nat
  | leaf => 0
  | node l _ r => max l.height r.height + 1

def size : AvlTree α → Nat
  | leaf => 0
  | node l _ r => l.size + r.size + 1

/-- The labels, from left to right. -/
def toList : AvlTree α → List α
  | leaf => []
  | node l a r => l.toList ++ a :: r.toList

/-- The heights of siblings differ by one at most. -/
def Balanced : AvlTree α → Prop
  | leaf => True
  | node l _ r =>
    l.Balanced ∧ r.Balanced ∧ l.height ≤ r.height + 1 ∧ r.height ≤ l.height + 1

@[simp] theorem height_leaf : (leaf : AvlTree α).height = 0 := rfl

@[simp] theorem height_node (l : AvlTree α) (a : α) (r : AvlTree α) :
    (node l a r).height = max l.height r.height + 1 := rfl

@[simp] theorem toList_leaf : (leaf : AvlTree α).toList = [] := rfl

@[simp] theorem toList_node (l : AvlTree α) (a : α) (r : AvlTree α) :
    (node l a r).toList = l.toList ++ a :: r.toList := rfl

@[simp] theorem balanced_leaf : (leaf : AvlTree α).Balanced := trivial

@[simp] theorem balanced_node (l : AvlTree α) (a : α) (r : AvlTree α) : (node l a r).Balanced ↔
    l.Balanced ∧ r.Balanced ∧ l.height ≤ r.height + 1 ∧ r.height ≤ l.height + 1 := Iff.rfl

theorem length_toList (t : AvlTree α) : t.toList.length = t.size := by
  induction t with
  | leaf => rfl
  | node l a r ihl ihr =>
    rw [toList_node, length_append, length_cons, ihl, ihr, size]
    omega

/-! ## Rotations -/

def rotateLeft : AvlTree α → AvlTree α
  | node l a (node m b r) => node (node l a m) b r
  | t => t

def rotateRight : AvlTree α → AvlTree α
  | node (node l a m) b r => node l a (node m b r)
  | t => t

/-- The right subtree is the higher one. -/
def leansRight : AvlTree α → Bool
  | leaf => false
  | node l _ r => l.height < r.height

/-- The left subtree is the higher one. -/
def leansLeft : AvlTree α → Bool
  | leaf => false
  | node l _ r => r.height < l.height

/-- The balance of a node whose subtrees are balanced. -/
def rebalance : AvlTree α → AvlTree α
  | leaf => leaf
  | node l a r =>
    if r.height + 1 < l.height then
      rotateRight (node (if l.leansRight then l.rotateLeft else l) a r)
    else if l.height + 1 < r.height then
      rotateLeft (node l a (if r.leansLeft then r.rotateRight else r))
    else node l a r

@[simp] theorem toList_rotateLeft (t : AvlTree α) : t.rotateLeft.toList = t.toList := by
  rcases t with _ | ⟨l, a, _ | ⟨m, b, r⟩⟩ <;> simp [rotateLeft]

@[simp] theorem toList_rotateRight (t : AvlTree α) : t.rotateRight.toList = t.toList := by
  rcases t with _ | ⟨_ | ⟨l, a, m⟩, b, r⟩ <;> simp [rotateRight]

@[simp] theorem toList_rebalance (t : AvlTree α) : t.rebalance.toList = t.toList := by
  cases t with
  | leaf => rfl
  | node l a r =>
    rw [rebalance]
    split
    · rw [toList_rotateRight, toList_node, toList_node]
      split <;> simp
    split
    · rw [toList_rotateLeft, toList_node, toList_node]
      split <;> simp
    · rfl

theorem height_rotateLeft_le (t : AvlTree α) : t.rotateLeft.height ≤ t.height + 1 := by
  rcases t with _ | ⟨l, a, _ | ⟨m, b, r⟩⟩ <;> simp only [rotateLeft, height_node, height_leaf] <;>
    omega

theorem height_rotateRight_le (t : AvlTree α) : t.rotateRight.height ≤ t.height + 1 := by
  rcases t with _ | ⟨_ | ⟨l, a, m⟩, b, r⟩ <;>
    simp only [rotateRight, height_node, height_leaf] <;> omega

/-- **A node out of balance by two** is balanced again, and not higher. -/
theorem balanced_rebalance {l r} (hl : l.Balanced) (hr : r.Balanced)
    (hleft : l.height ≤ r.height + 2) (hright : r.height ≤ l.height + 2) (a : α) :
    (node l a r).rebalance.Balanced ∧
      (node l a r).height ≤ (node l a r).rebalance.height + 1 ∧
      (node l a r).rebalance.height ≤ (node l a r).height := by
  rw [rebalance]
  by_cases hheavy : r.height + 1 < l.height
  · rw [if_pos hheavy]
    cases l with
    | leaf => simp at hheavy
    | node ll la lr =>
      simp only [balanced_node, height_node] at hl hheavy hleft ⊢
      by_cases hlean : ll.height < lr.height
      · -- the left child leans the other way
        cases lr with
        | leaf => simp at hlean
        | node lrl b lrr =>
          simp only [balanced_node, height_node] at hl hlean
          simp only [leansRight, rotateLeft, rotateRight, height_node, balanced_node, hlean,
            decide_true, if_true]
          simp only [height_node] at hheavy hleft
          refine ⟨⟨⟨hl.1, hl.2.1.1, ?_, ?_⟩, ⟨hl.2.1.2.1, hr, ?_, ?_⟩, ?_, ?_⟩, ?_, ?_⟩ <;> omega
      · simp only [leansRight, rotateRight, height_node, balanced_node, hlean, decide_false,
          Bool.false_eq_true, if_false]
        refine ⟨⟨hl.1, ⟨hl.2.1, hr, ?_, ?_⟩, ?_, ?_⟩, ?_, ?_⟩ <;> omega
  rw [if_neg hheavy]
  by_cases hheavy' : l.height + 1 < r.height
  · rw [if_pos hheavy']
    cases r with
    | leaf => simp at hheavy'
    | node rl ra rr =>
      simp only [balanced_node, height_node] at hr hheavy' hright ⊢
      by_cases hlean : rr.height < rl.height
      · -- the right child leans the other way
        cases rl with
        | leaf => simp at hlean
        | node rll b rlr =>
          simp only [balanced_node, height_node] at hr hlean
          simp only [leansLeft, rotateLeft, rotateRight, height_node, balanced_node, hlean,
            decide_true, if_true]
          simp only [height_node] at hheavy' hright
          refine ⟨⟨⟨hl, hr.1.1, ?_, ?_⟩, ⟨hr.1.2.1, hr.2.1, ?_, ?_⟩, ?_, ?_⟩, ?_, ?_⟩ <;> omega
      · simp only [leansLeft, rotateLeft, height_node, balanced_node, hlean, decide_false,
          Bool.false_eq_true, if_false]
        refine ⟨⟨⟨hl, hr.1, ?_, ?_⟩, hr.2.1, ?_, ?_⟩, ?_, ?_⟩ <;> omega
  · rw [if_neg hheavy', balanced_node]
    refine ⟨⟨hl, hr, ?_, ?_⟩, ?_, ?_⟩ <;> omega

/-! ## Insertion -/

def insert (goRight : α → Bool) (x : α) : AvlTree α → AvlTree α
  | leaf => node leaf x leaf
  | node l a r =>
    if goRight a then rebalance (node l a (insert goRight x r))
    else rebalance (node (insert goRight x l) a r)

variable {t : AvlTree α}

theorem rebalance_of_balanced (h : t.Balanced) : t.rebalance = t := by
  cases t with
  | leaf => rfl
  | node l a r =>
    rw [balanced_node] at h
    rw [rebalance, if_neg (by omega), if_neg (by omega)]

/-- **Insertion keeps the balance**, and adds one level at most. -/
theorem balanced_insert (goRight : α → Bool) (x : α) (h : t.Balanced) :
    (t.insert goRight x).Balanced ∧ t.height ≤ (t.insert goRight x).height ∧
      (t.insert goRight x).height ≤ t.height + 1 := by
  induction t with
  | leaf => simp [insert]
  | node l a r ihl ihr =>
    obtain ⟨hl, hr, hleft, hright⟩ := h
    rw [insert]
    split
    · obtain ⟨hbalanced, hle, hge⟩ := ihr hr
      obtain ⟨hrebalanced, hlow, hhigh⟩ :=
        balanced_rebalance hl hbalanced (by omega) (by omega) a
      refine ⟨hrebalanced, ?_, ?_⟩
      · by_cases hstays : (node l a (insert goRight x r)).Balanced
        · rw [rebalance_of_balanced hstays]
          simp only [height_node]
          omega
        · have hgrown : l.height + 1 < (insert goRight x r).height := by
            by_contra hnot
            exact hstays ⟨hl, hbalanced, by omega, by omega⟩
          simp only [height_node] at hlow hhigh ⊢
          omega
      · simp only [height_node] at hhigh ⊢
        omega
    · obtain ⟨hbalanced, hle, hge⟩ := ihl hl
      obtain ⟨hrebalanced, hlow, hhigh⟩ :=
        balanced_rebalance hbalanced hr (by omega) (by omega) a
      refine ⟨hrebalanced, ?_, ?_⟩
      · by_cases hstays : (node (insert goRight x l) a r).Balanced
        · rw [rebalance_of_balanced hstays]
          simp only [height_node]
          omega
        · have hgrown : r.height + 1 < (insert goRight x l).height := by
            by_contra hnot
            exact hstays ⟨hbalanced, hr, by omega, by omega⟩
          simp only [height_node] at hlow hhigh ⊢
          omega
      · simp only [height_node] at hhigh ⊢
        omega

/-- **Where a label is inserted**: behind the labels to go right of, when these
come first. -/
theorem toList_insert (goRight : α → Bool) (x : α)
    (h : t.toList.Pairwise fun a b => goRight b = true → goRight a = true) :
    (t.insert goRight x).toList =
      t.toList.filter goRight ++ x :: t.toList.filter (!goRight ·) := by
  induction t with
  | leaf => rfl
  | node l a r ihl ihr =>
    rw [toList_node, pairwise_append, pairwise_cons] at h
    obtain ⟨hl, ⟨hafter, hr⟩, hbetween⟩ := h
    rw [insert]
    by_cases ha : goRight a = true
    · -- everything left of the label comes first, too
      have hleft : ∀ b ∈ l.toList, goRight b = true :=
        fun b hb => hbetween b hb a mem_cons_self ha
      have hkept : l.toList.filter goRight = l.toList := filter_eq_self.mpr hleft
      have hnone : l.toList.filter (!goRight ·) = [] :=
        filter_eq_nil_iff.mpr (fun b hb => by simp [hleft b hb])
      rw [if_pos ha, toList_rebalance, toList_node, ihr hr, toList_node, List.filter_append,
        List.filter_append, filter_cons_of_pos ha, filter_cons_of_neg (by simp [ha]),
        hkept, hnone]
      simp
    · have hright : ∀ b ∈ r.toList, ¬ goRight b = true := fun b hb hb' => ha (hafter b hb hb')
      have hkept : r.toList.filter (!goRight ·) = r.toList :=
        filter_eq_self.mpr (fun b hb => by simp [hright b hb])
      have hnone : r.toList.filter goRight = [] := filter_eq_nil_iff.mpr hright
      rw [if_neg ha, toList_rebalance, toList_node, ihl hl, toList_node, List.filter_append,
        List.filter_append, filter_cons_of_neg ha, filter_cons_of_pos (by simp [ha]),
        hkept, hnone]
      simp

/-- The labels after an insertion, in some order. -/
theorem perm_insert (goRight : α → Bool) (x : α) (t : AvlTree α) :
    (t.insert goRight x).toList.Perm (x :: t.toList) := by
  induction t with
  | leaf => exact .refl _
  | node l a r ihl ihr =>
    rw [insert, toList_node]
    split
    · rw [toList_rebalance, toList_node]
      exact ((ihr.cons a).append_left _).trans
        (((List.Perm.swap x a _).append_left _).trans perm_middle)
    · rw [toList_rebalance, toList_node]
      exact ihl.append_right _

/-! ## Height -/

/-- **A balanced tree is low**: its size grows by a factor two every two levels. -/
theorem two_pow_height_le (h : t.Balanced) : 2 ^ (t.height / 2) ≤ t.size + 1 := by
  induction t with
  | leaf => simp [size]
  | node l a r ihl ihr =>
    obtain ⟨hl, hr, hleft, hright⟩ := h
    have hsmall : ∀ s : AvlTree α, 2 ^ (s.height / 2) ≤ s.size + 1 →
        (node l a r).height ≤ s.height + 2 →
        2 ^ ((node l a r).height / 2) ≤ 2 * (s.size + 1) := by
      intro s hs hheight
      calc 2 ^ ((node l a r).height / 2) ≤ 2 ^ (s.height / 2 + 1) :=
            Nat.pow_le_pow_right (by decide) (by omega)
        _ = 2 * 2 ^ (s.height / 2) := Nat.pow_succ'
        _ ≤ 2 * (s.size + 1) := Nat.mul_le_mul_left 2 hs
    have hbyleft := hsmall l (ihl hl) (by simp only [height_node]; omega)
    have hbyright := hsmall r (ihr hr) (by simp only [height_node]; omega)
    rw [size]
    omega

theorem height_lt (h : t.Balanced) {k} (hsize : t.size + 1 < 2 ^ k) : t.height < 2 * k := by
  have hpow := Nat.lt_of_le_of_lt (two_pow_height_le h) hsize
  have hlt := (Nat.pow_lt_pow_iff_right (by decide)).mp hpow
  omega

end AvlTree

end Ish.Lib
