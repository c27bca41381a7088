import Ish.Epsh.ReadOn
import Ish.Lib.TwoRuns

/-!
# The lexer and its place in the source

What the lexer reads does not depend on the position that it counts: from two states
that differ in nothing else it returns the same, and the states differ in nothing else
afterwards. Only the places of errors tell the two runs apart.
-/

namespace Ish.Epsh

open Ish.Lib
open Process (Mirrors Repeats)

variable {α β : Type}

/-- The states are the same but for the position, and for which words are reserved. -/
structure SameText (s s' : LexerState) : Prop where
  src : s'.src = s.src
  encoding_prefix : s'.encoding_prefix = s.encoding_prefix
  nesting : s'.nesting = s.nesting
  pushback : s'.pushback = s.pushback
  pending_heredocs : s'.pending_heredocs = s.pending_heredocs

namespace SameText

variable {s s' : LexerState}

theorem advanced (h : SameText s s') : SameText s.advanced s'.advanced := by
  have hsrc := h.src
  have hencoding := h.encoding_prefix
  unfold LexerState.advanced
  rw [hsrc]
  split
  · exact h
  · rw [hencoding]
    split_ifs
    · exact { h with src := rfl, encoding_prefix := rfl }
    · exact { h with src := rfl, encoding_prefix := rfl }
    · exact { h with src := rfl, encoding_prefix := rfl }

theorem skipContinuations (h : SameText s s') (src : List Char) :
    SameText (LexerState.skipContinuations src s) (LexerState.skipContinuations src s') := by
  induction src, s using LexerState.skipContinuations.induct generalizing s' with
  | case1 src s ih =>
    rw [LexerState.skipContinuations, LexerState.skipContinuations]
    exact ih h.advanced.advanced
  | case2 src s hsrc =>
    rw [LexerState.skipContinuations, LexerState.skipContinuations]
    · exact h
    · exact hsrc
    · exact hsrc

theorem atChar (h : SameText s s') : SameText s.atChar s'.atChar := by
  rw [LexerState.atChar, LexerState.atChar, h.src]
  exact h.skipContinuations s.src

end SameText

/-- What `x` returns does not depend on the position. -/
abbrev Placeless (x : LexM α) : Prop := Repeats SameText x

theorem placeless_peekChar : Placeless peekChar :=
  Mirrors.modifyGet fun _ _ hs => ⟨by rw [hs.atChar.src], hs.atChar⟩

theorem placeless_advanceRaw : Placeless advanceRaw :=
  Mirrors.modifyGet fun _ _ hs => ⟨by rw [hs.src], hs.advanced⟩

/-- Spans are of no account but for errors. -/
theorem mirrors_currentSpan {Q} {f : Span → LexM α} {g : Span → LexM β}
    (h : ∀ span span', Mirrors SameText Q (f span) (g span')) :
    Mirrors SameText Q (currentSpan >>= f) (currentSpan >>= g) := by
  have hspan : Mirrors SameText (fun _ _ => True) currentSpan currentSpan :=
    Mirrors.get_bind fun _ _ _ => .pure trivial
  exact hspan.bind fun span span' _ => h span span'

theorem mirrors_enclosed (part : α → WordPart) (parse : Nat → Except SyntaxError α)
    (base base' : Span) :
    Mirrors SameText Eq
      (get >>= fun s : LexerState => part <$> nestedResult base (parse s.nesting))
      (get >>= fun s : LexerState => part <$> nestedResult base' (parse s.nesting)) := by
  refine Mirrors.get_bind fun s s' hs => ?_
  rw [hs.nesting]
  cases parse s.nesting with
  | error e => exact .fail _ _
  | ok a => exact .pure rfl

theorem placeless_guarded (span : Span) {x : LexM α} (hx : Placeless x) :
    Placeless (guarded span x) := by
  intro s s' a t hs h
  unfold guarded at h ⊢
  rw [hs.nesting]
  split at h
  · cases h
  · rename_i hdepth
    obtain ⟨⟨ending, u⟩, hrun, hr⟩ := Option.map_eq_some_iff.mp h
    cases hr
    have hinner : SameText { s with nesting := s.nesting + 1 }
        { s' with nesting := s.nesting + 1 } := { hs with nesting := rfl }
    obtain ⟨b, u', hrun', hab, hu⟩ := hx _ _ a u hinner hrun
    refine ⟨b, { u' with nesting := s.nesting }, ?_, hab, { hu with nesting := rfl }⟩
    rw [if_neg hdepth, hrun']
    rfl

/-- **What a reader returns does not depend on the position.** -/
theorem IsReader.placeless {x : LexM α} (h : IsReader x) : Placeless x := by
  induction h with
  | pure a => exact .pure a
  | fail e => exact .fail e
  | diverge => exact .diverge
  | bind _ _ hx hf => exact .bind hx hf
  | peekChar => exact placeless_peekChar
  | advanceRaw => exact placeless_advanceRaw
  | @look _ f hsrc _ hf =>
    refine Mirrors.get_bind fun s s' hs => ?_
    rw [hsrc s' s hs.src]
    exact hf s
  | guarded span _ hx => exact placeless_guarded span hx
  | enclosed _ part parse hx =>
    exact mirrors_currentSpan fun base base' => Repeats.mirrors hx fun content =>
      mirrors_enclosed part (parse · content) base base'

end Ish.Epsh
