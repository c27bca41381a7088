import Ish.Epsh.QuotedPattern

/-!
# Marked text

Expansion marks the units of quoted text, so that pathname expansion takes them
as they are, and removes the marks afterwards. A text with marks is related here
to the shell text it stands for.
-/

namespace Ish.Epsh

open Ish.Lib List

/-- `marked` is the shell text `text` with some of its units marked. -/
inductive Marks : Text → Text → Prop where
  | nil : Marks [] []
  | plain (u : ShellUnit) {marked text : Text} (h : Marks marked text) :
      Marks (u.text ++ marked) (u.text ++ text)
  | mark (u : ShellUnit) {marked text : Text} (h : Marks marked text) :
      Marks (CTLESC :: (u.text ++ marked)) (u.text ++ text)

namespace Marks

variable {marked marked' text text' : Text}

theorem append (h : Marks marked text) (h' : Marks marked' text') :
    Marks (marked ++ marked') (text ++ text') := by
  induction h with
  | nil => exact h'
  | plain u h ih =>
    rw [append_assoc, append_assoc]
    exact .plain u ih
  | mark u h ih =>
    rw [cons_append, append_assoc, append_assoc]
    exact .mark u ih

theorem of_text (h : IsShellText text) : Marks text text := by
  obtain ⟨us, rfl⟩ := h
  induction us with
  | nil => exact .nil
  | cons u us ih => exact .plain u ih

theorem protect (h : IsShellText text) (enabled : Bool) :
    Marks (protectGlobs text enabled) text := by
  rw [protectGlobs]
  cases enabled with
  | false => exact of_text h
  | true =>
    obtain ⟨us, rfl⟩ := h
    rw [if_pos rfl, shellChars_units]
    induction us with
    | nil => exact .nil
    | cons u us ih =>
      rw [map_cons, flatMap_cons, flatMap_cons]
      split
      · exact .plain u ih
      · exact .mark u ih

theorem unit_ne_marker (u : ShellUnit) : u.text ≠ [CTLESC] := by
  intro heq
  have h := (GlobUnit.unit u).shellCodepoint_text
  rw [GlobUnit.text, heq] at h
  exact u.codepoint_ne_globEscape h.symm

/-- **Removing the marks** leaves the text. -/
theorem remove (h : Marks marked text) : removeGlobEscapes marked = text := by
  rw [removeGlobEscapes]
  induction h with
  | nil => rfl
  | plain u h ih =>
    rw [shellChars_text_append, removeGlobEscapesLoop.eq_def]
    dsimp only
    rw [if_neg (unit_ne_marker u), ih]
  | mark u h ih =>
    rw [shellChars_cons (by decide), shellChars_text_append, removeGlobEscapesLoop, if_pos rfl]
    exact congrArg (u.text ++ ·) ih

theorem flatten {pieces texts} (h : List.Forall₂ Marks pieces texts) :
    Marks pieces.flatten texts.flatten := by
  induction h with
  | nil => exact .nil
  | cons h hs ih => exact h.append ih

end Marks

end Ish.Epsh
