import Mathlib.Data.List.Basic

/-!
# Trails of events

A trail lists what happened, the latest last. `Since` says that an event is in
force at its end, `Clean` that every event was in order when it happened. Both
are settled event by event, as the trail grows at its end.
-/

namespace Ish.Lib.Trail

variable {E : Type} {log : List E} {e : E}

/-- A `mark` has happened, and no `cancel` after it. -/
def Since (cancel mark : E → Prop) (log : List E) : Prop :=
  ∃ before e after, log = before ++ e :: after ∧ mark e ∧ ∀ x ∈ after, ¬cancel x

/-- Every event is allowed by what precedes it. -/
def Clean (ok : List E → E → Prop) (log : List E) : Prop :=
  ∀ before e after, log = before ++ e :: after → ok before e

variable {cancel mark : E → Prop} {ok : List E → E → Prop}

theorem snoc_eq_split {before after x} (h : log ++ [e] = before ++ x :: after) :
    (log = before ∧ e = x ∧ after = []) ∨
      ∃ rest, after = rest ++ [e] ∧ log = before ++ x :: rest := by
  rcases List.eq_nil_or_concat after with rfl | ⟨rest, last, rfl⟩
  · obtain ⟨hlog, he⟩ := List.append_inj' h rfl
    exact .inl ⟨hlog, by simpa using he, rfl⟩
  · have hassoc : log ++ [e] = (before ++ x :: rest) ++ [last] := by simpa using h
    obtain ⟨hlog, he⟩ := List.append_inj' hassoc rfl
    obtain rfl : e = last := by simpa using he
    exact .inr ⟨rest, by simp, hlog⟩

theorem since_marked (h : mark e) : Since cancel mark (log ++ [e]) :=
  ⟨log, e, [], rfl, h, by simp⟩

theorem Since.snoc (h : Since cancel mark log) (hcancel : ¬cancel e) :
    Since cancel mark (log ++ [e]) := by
  obtain ⟨before, x, after, rfl, hmark, hafter⟩ := h
  refine ⟨before, x, after ++ [e], by simp, hmark, fun y hy => ?_⟩
  rcases List.mem_append.mp hy with hy | hy
  · exact hafter y hy
  · rwa [List.mem_singleton.mp hy]

theorem clean_nil : Clean ok [] := by
  intro before e after h
  simp at h

theorem Clean.snoc (h : Clean ok log) (he : ok log e) : Clean ok (log ++ [e]) := by
  intro before x after hsplit
  rcases snoc_eq_split hsplit with ⟨rfl, rfl, -⟩ | ⟨rest, -, hlog⟩
  · exact he
  · exact h before x rest hlog

end Ish.Lib.Trail
