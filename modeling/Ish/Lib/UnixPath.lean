import Mathlib.Data.List.Infix
import Mathlib.Data.List.Lex

/-!
# Unix paths

A path is its bytes. Two paths are the same when their components are: repeated
separators, `.` parts and a separator at the end do not count. A `.` in front of
a path without a root is a component.
-/

namespace Ish.Lib.UnixPath

open List

abbrev Path := List UInt8

def SLASH : UInt8 := 0x2f
def DOT : UInt8 := 0x2e

inductive Component where
  | rootDir
  | curDir
  | parentDir
  | normal (name : List UInt8)
  deriving DecidableEq, Repr

/-- The parts between separators. -/
def parts : Path → List (List UInt8)
  | [] => [[]]
  | byte :: path =>
    if byte = SLASH then [] :: parts path
    else match parts path with
      | [] => [[byte]]
      | part :: rest => (byte :: part) :: rest

def component (part : List UInt8) : Option Component :=
  if part = [] ∨ part = [DOT] then none
  else if part = [DOT, DOT] then some .parentDir
  else some (.normal part)

/-- `Path::components` -/
def components (path : Path) : List Component :=
  let body := (parts path).filterMap component
  if path.head? = some SLASH then .rootDir :: body
  else if (parts path).head? = some [DOT] then .curDir :: body
  else body

/-- `Path::ancestors`, as components: the path itself, and what is left of it
as long as there is a last part to drop. -/
def ancestors (path : Path) : List (List Component) :=
  let all := (components path).inits.reverse
  if (components path).head? = some .rootDir then all.dropLast else all

/-- `Path::strip_prefix`, as components. -/
def strip (path base : Path) : Option (List Component) :=
  (components base).isPrefixOf? (components path)

/-- A component as a word: the order of components is the order of their words. -/
def Component.word : Component → List Nat
  | .rootDir => [0]
  | .curDir => [1]
  | .parentDir => [2]
  | .normal name => 3 :: name.map UInt8.toNat

/-- What paths are compared by. -/
def key (path : Path) : List (List Nat) := (components path).map Component.word

/-- `Path::cmp` -/
def order (path other : Path) : Ordering :=
  if key path < key other then .lt else if key path = key other then .eq else .gt

/-- `Path::join` with a name. -/
def join (dir name : Path) : Path :=
  if dir = [] ∨ dir.getLast? = some SLASH then dir ++ name else dir ++ SLASH :: name

/-- A reversed path without the separators and `.` parts at its end; nothing is
left of the root. -/
def trimBack : Path → Path
  | [] => []
  | byte :: rest =>
    if byte = SLASH then trimBack rest
    else if byte = DOT ∧ rest.head? = some SLASH then trimBack rest
    else byte :: rest

/-- `PathBuf::pop` on an absolute path: what is left, unless it is the root. -/
def pop (path : Path) : Option Path :=
  match trimBack path.reverse with
  | [] => none
  | byte :: back =>
    match trimBack ((byte :: back).dropWhile (· ≠ SLASH)) with
    | [] => some [SLASH]
    | parent => some parent.reverse

/-- A directory and those above it, `fuel` at most. -/
def upwardFrom : Nat → Path → List Path
  | 0, path => [path]
  | fuel + 1, path => path :: (match pop path with
      | none => []
      | some parent => upwardFrom fuel parent)

/-- An absolute path and what `pop` leaves of it, up to the root. -/
def upward (path : Path) : List Path := upwardFrom path.length path

theorem order_eq_lt_iff : order path other = .lt ↔ key path < key other := by
  rw [order]
  split
  · next hlt => exact ⟨fun _ => hlt, fun _ => rfl⟩
  split
  · next hlt _ => exact ⟨(nomatch ·), fun h => absurd h hlt⟩
  · next hlt _ => exact ⟨(nomatch ·), fun h => absurd h hlt⟩

theorem order_eq_eq_iff : order path other = .eq ↔ key path = key other := by
  rw [order]
  split
  · next hlt => exact ⟨(nomatch ·), fun h => absurd h (ne_of_lt hlt)⟩
  split
  · next heq => exact ⟨fun _ => heq, fun _ => rfl⟩
  · next heq => exact ⟨(nomatch ·), fun h => absurd h heq⟩

theorem order_eq_gt_iff : order path other = .gt ↔ key other < key path := by
  rw [order]
  split
  · next hlt => exact ⟨(nomatch ·), fun h => absurd h (lt_asymm hlt)⟩
  split
  · next heq => exact ⟨(nomatch ·), fun h => absurd heq (ne_of_gt h)⟩
  · next hlt heq => exact ⟨fun _ => lt_of_le_of_ne (not_lt.mp hlt) (Ne.symm heq), fun _ => rfl⟩

theorem Component.word_injective {a b : Component} (h : a.word = b.word) : a = b := by
  have hbytes : ∀ {name name' : List UInt8}, name.map UInt8.toNat = name'.map UInt8.toNat →
      name = name' := fun h => map_injective_iff.mpr (fun _ _ => UInt8.toNat_inj.mp) h
  cases a <;> cases b <;> simp only [word, List.cons.injEq] at h <;> first
    | rfl
    | (rw [hbytes h.2])
    | omega

/-- Paths compare equal when their components are. -/
theorem key_eq_iff {path other : Path} : key path = key other ↔ components path = components other :=
  ⟨fun h => map_injective_iff.mpr (fun _ _ => Component.word_injective) h,
    fun h => by rw [key, key, h]⟩

/-! ## Absolute paths -/

/-- A path starts at the root. -/
def IsAbsolute (path : Path) : Prop := path.head? = some SLASH

instance (path : Path) : Decidable (IsAbsolute path) := inferInstanceAs (Decidable (_ = _))

theorem components_absolute (h : IsAbsolute path) :
    components path = .rootDir :: (parts path).filterMap component := by
  rw [components]
  exact if_pos h

theorem parts_ne_nil (path : Path) : parts path ≠ [] := by
  induction path with
  | nil => exact nofun
  | cons byte path ih =>
    rw [parts]
    split_ifs
    · exact nofun
    · split <;> exact nofun

theorem components_eq_nil (h : components path = []) : path = [] := by
  cases path with
  | nil => rfl
  | cons byte path =>
    exfalso
    rw [components] at h
    split_ifs at h with hroot hdot
    rw [filterMap_eq_nil_iff] at h
    have hbyte : byte ≠ SLASH := fun hb => hroot (by rw [hb, head?_cons])
    rw [parts, if_neg hbyte] at h hdot
    cases hparts : parts path with
    | nil => exact parts_ne_nil path hparts
    | cons part rest =>
      rw [hparts] at h hdot
      have hnone := h (byte :: part) mem_cons_self
      rw [component, if_neg] at hnone
      · split at hnone <;> cases hnone
      · rintro (hnil | hsame)
        · cases hnil
        · exact hdot (congrArg some hsame)

theorem length_parts_le (path : Path) : (parts path).length ≤ path.length + 1 := by
  induction path with
  | nil => exact le_rfl
  | cons byte path ih =>
    rw [parts]
    split_ifs
    · simpa using ih
    · cases hparts : parts path with
      | nil => simp
      | cons part rest =>
        rw [hparts] at ih
        simpa using Nat.le_succ_of_le ih

theorem length_components_le (path : Path) : (components path).length ≤ path.length + 2 := by
  have hbody : ((parts path).filterMap component).length ≤ path.length + 1 :=
    (length_filterMap_le _ _).trans (length_parts_le path)
  rw [components]
  split_ifs
  · simpa using hbody
  · simpa using hbody
  · exact Nat.le_succ_of_le hbody

theorem strip_eq_some :
    strip path base = some rest ↔ components base ++ rest = components path :=
  isPrefixOf?_eq_some_iff_append_eq

theorem length_ancestors (h : IsAbsolute path) :
    (ancestors path).length = (components path).length := by
  rw [ancestors, components_absolute h]
  simp

theorem getElem?_ancestors (h : IsAbsolute path)
    (habove : above < (components path).length) :
    (ancestors path)[above]? = some ((components path).take ((components path).length - above)) := by
  have hhead : (components path).head? = some .rootDir := by
    rw [components_absolute h, head?_cons]
  simp only [ancestors, if_pos hhead]
  rw [getElem?_dropLast, if_pos (by simpa using habove),
    getElem?_reverse (by rw [length_inits]; omega), length_inits,
    getElem?_eq_getElem (by rw [length_inits]; omega), getElem_inits]
  rfl

/-! ## Normal paths -/

/-- The plain spelling of some components after the root. -/
def spell (names : List Component) : Path :=
  names.flatMap fun
    | .normal name => SLASH :: name
    | .parentDir => [SLASH, DOT, DOT]
    | _ => []

/-- An absolute path without repeated separators, `.` parts or a separator at its end. -/
def IsNormal (path : Path) : Prop :=
  path = [SLASH] ∨
    IsAbsolute path ∧ ∃ names, components path = .rootDir :: names ∧ path = spell names

example : components [SLASH, 0x61, SLASH, SLASH, DOT, SLASH, 0x62, SLASH] =
    [.rootDir, .normal [0x61], .normal [0x62]] := by decide

end Ish.Lib.UnixPath
