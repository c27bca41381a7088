import Mathlib.Algebra.GroupWithZero.Nat
import Mathlib.Data.List.Basic

/-!
# The options of a utility

The syntax of options by letters: an argument that starts with a dash is a group of letters,
a letter may take the rest of its group or the next argument as its own argument, and the
first argument that is no group, or `--`, ends the options. Which letters there are is a
parameter.
-/

namespace Ish.Lib.Options

variable {α : Type} [DecidableEq α]

/-- What a letter is. -/
inductive Kind where
  | unknown
  | flag
  | argument
deriving DecidableEq

/-- What is found at a letter. -/
inductive Found (α : Type) where
  | flag (letter : α)
  | argument (letter : α) (value : List α)
  | unknown (letter : α)
  | missing (letter : α)
deriving DecidableEq

/-- Where the reader of options stands: the letters left of a group, and the arguments after
it. -/
structure Place (α : Type) where
  letters : List α
  rest : List (List α)
deriving DecidableEq

namespace Place

/-- What is left to read. -/
def size (place : Place α) : Nat :=
  place.letters.length + (place.rest.map fun arg => arg.length + 1).sum

end Place

variable (dash : α) (kind : α → Kind)

/-- The letter at the front of a group. -/
def letterAt (letter : α) (letters : List α) (rest : List (List α)) : Found α × Place α :=
  match kind letter with
  | .unknown => (.unknown letter, ⟨letters, rest⟩)
  | .flag => (.flag letter, ⟨letters, rest⟩)
  | .argument =>
    match letters, rest with
    | [], [] => (.missing letter, ⟨[], []⟩)
    | [], arg :: rest => (.argument letter arg, ⟨[], rest⟩)
    | letters, rest => (.argument letter letters, ⟨[], rest⟩)

/-- The next option, if the options have not ended. -/
def next : Place α → Option (Found α × Place α)
  | ⟨letter :: letters, rest⟩ => some (letterAt kind letter letters rest)
  | ⟨[], (first :: letter :: letters) :: rest⟩ =>
    if first = dash ∧ (letter :: letters) ≠ [dash] then
      some (letterAt kind letter letters rest)
    else none
  | _ => none

/-- What stands after the options, where they have ended. -/
def operands (place : Place α) : List (List α) :=
  match place.rest with
  | arg :: rest => if arg = [dash, dash] then rest else arg :: rest
  | [] => []

variable {dash kind}

omit [DecidableEq α] in
variable (kind) in
theorem size_letterAt (letter : α) (letters : List α) (rest : List (List α)) :
    (letterAt kind letter letters rest).2.size ≤ (⟨letters, rest⟩ : Place α).size := by
  unfold letterAt
  split
  · exact Nat.le_refl _
  · exact Nat.le_refl _
  · split <;> simp [Place.size]

/-- Every option takes something of what is left to read. -/
theorem size_next
    (h : next dash kind place = some (found, after)) : after.size < place.size := by
  unfold next at h
  split at h
  · rename_i letter letters rest
    have hsize := size_letterAt kind letter letters rest
    rw [Option.some.inj h] at hsize
    refine Nat.lt_of_le_of_lt hsize ?_
    simp only [Place.size, List.length_cons]
    omega
  · rename_i first letter letters rest
    split at h
    · have hsize := size_letterAt kind letter letters rest
      rw [Option.some.inj h] at hsize
      refine Nat.lt_of_le_of_lt hsize ?_
      simp only [Place.size, List.length_cons, List.map_cons, List.sum_cons, List.length_nil]
      omega
    · cases h
  · cases h

variable (dash kind)

/-- **The options** from a place on, and where they end. -/
def sequence (place : Place α) : List (Found α) × Place α :=
  match h : next dash kind place with
  | some (found, after) =>
    ((found :: (sequence after).1), (sequence after).2)
  | none => ([], place)
termination_by place.size
decreasing_by exact size_next h

variable {dash kind}

theorem sequence_next
    (h : next dash kind place = some (found, after)) :
    sequence dash kind place =
      (found :: (sequence dash kind after).1, (sequence dash kind after).2) := by
  rw [sequence]
  split
  · rename_i found' after' heq
    obtain ⟨rfl, rfl⟩ := Prod.mk.inj (Option.some.inj (heq.symm.trans h))
    rfl
  · rename_i heq
    rw [heq] at h
    cases h

theorem sequence_end (h : next dash kind place = none) :
    sequence dash kind place = ([], place) := by
  rw [sequence]
  split
  · rename_i found after heq
    rw [heq] at h
    cases h
  · rfl

/-- The options of the arguments of a utility. -/
def ofArgs (dash : α) (kind : α → Kind) (args : List (List α)) : List (Found α) :=
  (sequence dash kind ⟨[], args⟩).1

/-- A place that is reached after `seen` options of those from `start` on. -/
def Reached (dash : α) (kind : α → Kind) (start : Place α) (seen : List (Found α))
    (place : Place α) : Prop :=
  sequence dash kind start =
    (seen ++ (sequence dash kind place).1, (sequence dash kind place).2)

theorem Reached.refl (place : Place α) : Reached dash kind place [] place := rfl

theorem Reached.next
    (h : Reached dash kind start seen place)
    (hnext : Options.next dash kind place = some (found, after)) :
    Reached dash kind start (seen ++ [found]) after := by
  unfold Reached at h ⊢
  rw [h, sequence_next hnext, List.append_assoc, List.singleton_append]

end Ish.Lib.Options
