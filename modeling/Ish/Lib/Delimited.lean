import Mathlib.Data.List.Basic
import Mathlib.Data.List.TakeWhile

/-!
# Fields of delimited text

Text as pieces: white space, hard delimiters, and text that is kept. A
delimiter of fields is a maximal run of white space that holds at most one hard
delimiter; white space at the start belongs to no field.

`fields` says so by cutting runs off the text; `go` reads it piece by piece. A
reader that stops and starts again (`runFrom`, over chunks of the text) goes
wrong only by the state in which it enters a chunk.
-/

namespace Ish.Lib.Delimited

open List

variable {α : Type}

inductive Piece (α : Type) where
  | white
  | delim
  | keep (text : List α)
deriving DecidableEq

namespace Piece

def isWhite : Piece α → Bool
  | white => true
  | _ => false

def isKeep : Piece α → Bool
  | keep _ => true
  | _ => false

def isDelim : Piece α → Bool
  | delim => true
  | _ => false

def text : Piece α → List α
  | keep t => t
  | _ => []

end Piece

/-! ## The definition -/

def skipWhite (ps : List (Piece α)) : List (Piece α) := ps.dropWhile Piece.isWhite

/-- The text after one delimiter. -/
def skipDelimiter (ps : List (Piece α)) : List (Piece α) :=
  match skipWhite ps with
  | .delim :: rest => skipWhite rest
  | rest => rest

/-- The fields of text that does not start with white space; each round takes a
piece, so the length is fuel enough. -/
def fieldsFuel : Nat → List (Piece α) → List (List α)
  | 0, _ => []
  | _, [] => []
  | fuel + 1, ps =>
    (ps.takeWhile Piece.isKeep).flatMap Piece.text ::
      fieldsFuel fuel (skipDelimiter (ps.dropWhile Piece.isKeep))

def fields (ps : List (Piece α)) : List (List α) :=
  fieldsFuel ps.length (skipWhite ps)

@[simp] theorem skipWhite_nil : skipWhite ([] : List (Piece α)) = [] := rfl

@[simp] theorem skipWhite_white (ps : List (Piece α)) :
    skipWhite (.white :: ps) = skipWhite ps := rfl

@[simp] theorem skipWhite_delim (ps : List (Piece α)) :
    skipWhite (.delim :: ps) = .delim :: ps := rfl

@[simp] theorem skipWhite_keep (t : List α) (ps : List (Piece α)) :
    skipWhite (.keep t :: ps) = .keep t :: ps := rfl

@[simp] theorem skipDelimiter_nil : skipDelimiter ([] : List (Piece α)) = [] := rfl

@[simp] theorem skipDelimiter_white (ps : List (Piece α)) :
    skipDelimiter (.white :: ps) = skipDelimiter ps := rfl

@[simp] theorem skipDelimiter_delim (ps : List (Piece α)) :
    skipDelimiter (.delim :: ps) = skipWhite ps := rfl

@[simp] theorem skipDelimiter_keep (t : List α) (ps : List (Piece α)) :
    skipDelimiter (.keep t :: ps) = .keep t :: ps := rfl

/-- Text that starts with no white space. -/
def Trimmed (ps : List (Piece α)) : Prop := ps.head? ≠ some .white

theorem skipWhite_trimmed (ps : List (Piece α)) : Trimmed (skipWhite ps) := by
  induction ps with
  | nil => simp [Trimmed]
  | cons p ps ih =>
    cases p with
    | white => exact ih
    | delim => simp [Trimmed]
    | keep t => simp [Trimmed]

theorem skipDelimiter_trimmed (ps : List (Piece α)) : Trimmed (skipDelimiter ps) := by
  induction ps with
  | nil => simp [Trimmed]
  | cons p ps ih =>
    cases p with
    | white => exact ih
    | delim => exact skipWhite_trimmed ps
    | keep t => simp [Trimmed]

theorem length_skipWhite_le (ps : List (Piece α)) : (skipWhite ps).length ≤ ps.length :=
  (dropWhile_suffix _).length_le

theorem length_skipDelimiter_le (ps : List (Piece α)) : (skipDelimiter ps).length ≤ ps.length := by
  induction ps with
  | nil => simp
  | cons p ps ih =>
    cases p with
    | white => exact Nat.le_succ_of_le ih
    | delim => exact Nat.le_succ_of_le (length_skipWhite_le ps)
    | keep t => simp

/-! ## The reader -/

/-- Where the reader stands: before any field, in a field, or in white space
after one. -/
inductive State (α : Type) where
  | start
  | word (field : List α)
  | gap

namespace State

/-- The field in progress. -/
def pending : State α → Option (List α)
  | word f => some f
  | _ => none

/-- The text of the field in progress. -/
def text (s : State α) : List α := s.pending.getD []

end State

/-- One piece: the fields it ends and the state after it. -/
def step : State α → Piece α → List (List α) × State α
  | .start, .white => ([], .start)
  | .start, .delim => ([[]], .start)
  | .word f, .white => ([f], .gap)
  | .word f, .delim => ([f], .start)
  | .gap, .white => ([], .gap)
  | .gap, .delim => ([], .start)
  | s, .keep t => ([], .word (s.text ++ t))

def go : State α → List (Piece α) → List (List α) × State α
  | s, [] => ([], s)
  | s, p :: ps => ((step s p).1 ++ (go (step s p).2 ps).1, (go (step s p).2 ps).2)

/-- The field that the end of the text ends. -/
def finish (s : State α) : List (List α) := s.pending.toList

@[simp] theorem go_nil (s : State α) : go s [] = ([], s) := rfl

theorem go_append (s : State α) (ps qs : List (Piece α)) :
    go s (ps ++ qs) =
      ((go s ps).1 ++ (go (go s ps).2 qs).1, (go (go s ps).2 qs).2) := by
  induction ps generalizing s with
  | nil => rfl
  | cons p ps ih => simp [go, ih]

/-- The fields of the rest of the text. -/
def outFrom (s : State α) (ps : List (Piece α)) : List (List α) :=
  (go s ps).1 ++ finish (go s ps).2

theorem outFrom_cons (s : State α) (p : Piece α) (ps : List (Piece α)) :
    outFrom s (p :: ps) = (step s p).1 ++ outFrom (step s p).2 ps := by
  simp [outFrom, go]

/-! ## The reader meets the definition -/

theorem go_start_skipWhite (ps : List (Piece α)) : go .start (skipWhite ps) = go .start ps := by
  induction ps with
  | nil => rfl
  | cons p ps ih =>
    cases p with
    | white => rw [skipWhite_white, ih]; rfl
    | delim => rfl
    | keep t => rfl

theorem go_gap (ps : List (Piece α)) :
    (go .gap ps).1 = (go .start (skipDelimiter ps)).1 ∧
      (go .gap ps).2.pending = (go .start (skipDelimiter ps)).2.pending := by
  induction ps with
  | nil => exact ⟨rfl, rfl⟩
  | cons p ps ih =>
    cases p with
    | white => exact ih
    | delim =>
      rw [skipDelimiter_delim, go_start_skipWhite]
      exact ⟨rfl, rfl⟩
    | keep t => exact ⟨rfl, rfl⟩

theorem outFrom_start_skipWhite (ps : List (Piece α)) :
    outFrom .start (skipWhite ps) = outFrom .start ps := by
  rw [outFrom, outFrom, go_start_skipWhite]

theorem outFrom_gap (ps : List (Piece α)) :
    outFrom .gap ps = outFrom .start (skipDelimiter ps) := by
  rw [outFrom, outFrom, finish, finish, (go_gap ps).1, (go_gap ps).2]

theorem outFrom_word (f : List α) (ps : List (Piece α)) :
    outFrom (.word f) ps =
      (f ++ (ps.takeWhile Piece.isKeep).flatMap Piece.text) ::
        outFrom .start (skipDelimiter (ps.dropWhile Piece.isKeep)) := by
  induction ps generalizing f with
  | nil => simp [outFrom, finish, State.pending]
  | cons p ps ih =>
    rw [outFrom_cons]
    cases p with
    | white =>
      rw [takeWhile_cons_of_neg (by simp [Piece.isKeep]),
        dropWhile_cons_of_neg (by simp [Piece.isKeep])]
      simp [step, outFrom_gap]
    | delim =>
      rw [takeWhile_cons_of_neg (by simp [Piece.isKeep]),
        dropWhile_cons_of_neg (by simp [Piece.isKeep])]
      simp [step, outFrom_start_skipWhite]
    | keep t =>
      rw [takeWhile_cons_of_pos rfl, dropWhile_cons_of_pos rfl]
      simp [step, Piece.text, State.text, State.pending, ih]

theorem fieldsFuel_eq (fuel : Nat) (ps : List (Piece α)) (hfuel : ps.length ≤ fuel)
    (htrim : Trimmed ps) : fieldsFuel fuel ps = outFrom .start ps := by
  induction fuel generalizing ps with
  | zero =>
    rw [length_eq_zero_iff.mp (Nat.le_zero.mp hfuel)]
    rfl
  | succ fuel ih =>
    cases ps with
    | nil => rfl
    | cons p ps =>
      -- the round takes `p`: kept text, or the delimiter it starts
      rw [length_cons] at hfuel
      cases p with
      | white => exact absurd rfl htrim
      | delim =>
        have hle := length_skipWhite_le ps
        have hrest := ih (skipWhite ps) (by omega) (skipWhite_trimmed ps)
        rw [fieldsFuel, takeWhile_cons_of_neg (by simp [Piece.isKeep]),
          dropWhile_cons_of_neg (by simp [Piece.isKeep]),
          skipDelimiter_delim, hrest, outFrom_start_skipWhite, outFrom_cons]
        · rfl
        · simp
      | keep t =>
        have hdrop : (ps.dropWhile Piece.isKeep).length ≤ ps.length :=
          (dropWhile_suffix _).length_le
        have hle := length_skipDelimiter_le (ps.dropWhile Piece.isKeep)
        have hrest := ih (skipDelimiter (ps.dropWhile Piece.isKeep)) (by omega)
          (skipDelimiter_trimmed _)
        rw [fieldsFuel, takeWhile_cons_of_pos rfl,
          dropWhile_cons_of_pos rfl, hrest, outFrom_cons]
        · simp [step, Piece.text, State.text, State.pending, outFrom_word]
        · simp

/-- **The reader finds the fields.** -/
theorem fields_eq_outFrom (ps : List (Piece α)) : fields ps = outFrom .start ps := by
  rw [fields, fieldsFuel_eq _ _ (length_skipWhite_le ps) (skipWhite_trimmed ps),
    outFrom_start_skipWhite]

/-! ## What the reader keeps -/

theorem go_text (s : State α) (ps : List (Piece α)) :
    (go s ps).1.flatten ++ (go s ps).2.text = s.text ++ ps.flatMap Piece.text := by
  induction ps generalizing s with
  | nil => simp
  | cons p ps ih =>
    have hstep : (step s p).1.flatten ++ (step s p).2.text = s.text ++ p.text := by
      cases p <;> cases s <;> simp [step, State.text, State.pending, Piece.text]
    simp only [go, flatten_append, append_assoc, flatMap_cons, ih]
    rw [← append_assoc, hstep, append_assoc]

def startsWhite (ps : List (Piece α)) : Bool := ps.head?.any Piece.isWhite

/-- A hard delimiter comes first, but for white space. -/
def startsDelim (ps : List (Piece α)) : Bool := (skipWhite ps).head?.any Piece.isDelim

/-- Entered at the start or in white space after a field, the reader differs in
one empty field, before a hard delimiter. -/
theorem go_start_eq_go_gap (ps : List (Piece α)) :
    (go .start ps).2.pending = (go .gap ps).2.pending ∧
      (go .start ps).1 =
        (if startsDelim ps then [[]] else []) ++ (go .gap ps).1 := by
  induction ps with
  | nil => exact ⟨rfl, rfl⟩
  | cons p ps ih =>
    cases p with
    | white => exact ih
    | delim => exact ⟨rfl, rfl⟩
    | keep t => exact ⟨rfl, rfl⟩

/-! ## Reading in chunks -/

/-- A stretch of the text, which may begin a new word. -/
structure Chunk (α : Type) where
  word_break : Bool
  pieces : List (Piece α)

/-- A word break ends the field in progress. -/
def breakWord (brk : Bool) (s : State α) : List (List α) × State α :=
  if brk then (finish s, .start) else ([], s)

/-- A reader of chunks, which enters each in the state that `enter` gives. -/
def runFrom (enter : State α → List (Piece α) → State α) :
    State α → List (Chunk α) → List (List α)
  | s, [] => finish s
  | s, c :: cs =>
    let (broken, s) := breakWord c.word_break s
    let (out, s) := go (enter s c.pieces) c.pieces
    broken ++ out ++ runFrom enter s cs

/-- Lists cut before the elements that begin a new word. -/
def groupFrom {β : Type} (brk : β → Bool) : List β → List β → List (List β)
  | word, [] => [word]
  | word, b :: bs =>
    if brk b then word :: groupFrom brk [b] bs else groupFrom brk (word ++ [b]) bs

theorem groupFrom_map {β γ : Type} (brk : γ → Bool) (f : β → γ) (word bs : List β) :
    groupFrom brk (word.map f) (bs.map f) =
      (groupFrom (fun b => brk (f b)) word bs).map (List.map f) := by
  induction bs generalizing word with
  | nil => rfl
  | cons b bs ih =>
    have hone := ih [b]
    have hmore := ih (word ++ [b])
    rw [map_append] at hmore
    rw [map_cons, groupFrom, groupFrom]
    split
    · rw [map_cons, ← hone]
      rfl
    · exact hmore

/-- The fields of a text of several words. -/
def chunkFields (cs : List (Chunk α)) : List (List α) :=
  (groupFrom Chunk.word_break [] cs).flatMap fun word =>
    fields (word.flatMap Chunk.pieces)

/-- Reads on as if there were no chunks. -/
def resume (s : State α) (_ : List (Piece α)) : State α := s

theorem groupFrom_flatMap_fields (word cs : List (Chunk α)) :
    ((groupFrom Chunk.word_break word cs).flatMap fun word =>
        fields (word.flatMap Chunk.pieces)) =
      (go .start (word.flatMap Chunk.pieces)).1 ++
        runFrom resume (go .start (word.flatMap Chunk.pieces)).2 cs := by
  induction cs generalizing word with
  | nil => simp [groupFrom, runFrom, fields_eq_outFrom, outFrom]
  | cons c cs ih =>
    rw [groupFrom, runFrom, breakWord]
    split
    · rw [flatMap_cons, ih, fields_eq_outFrom, outFrom]
      simp [resume]
    · rw [ih, flatMap_append, go_append]
      simp [resume]

theorem chunkFields_eq_runFrom (cs : List (Chunk α)) :
    chunkFields cs = runFrom resume .start cs := by
  rw [chunkFields, groupFrom_flatMap_fields]
  rfl

/-- A reader that knows, at a chunk, only the field in progress. White space at
the chunk's start counts as white space after a field. -/
def restart (s : State α) (ps : List (Piece α)) : State α :=
  match s with
  | .word f => .word f
  | _ => if startsWhite ps then .gap else .start

/-! ## Where restarting goes wrong -/

/-- What came last before a chunk: nothing of this word or a hard delimiter,
kept text, or white space after kept text. -/
inductive Back where
  | fresh
  | word
  | gap
deriving DecidableEq

def Back.next : Back → Piece α → Back
  | _, .keep _ => .word
  | _, .delim => .fresh
  | .word, .white => .gap
  | b, .white => b

inductive Mark where
  | kept
  | lost
  | gained
deriving DecidableEq

/-- The first hard delimiter of a chunk: after white space it is taken for the
end of a field there was none of, and at the start of the chunk for a delimiter
of its own though white space came before. -/
def headMark (b : Back) (ps : List (Piece α)) : List Mark :=
  if startsDelim ps then
    match b with
    | .fresh => if startsWhite ps then [.lost] else []
    | .word => []
    | .gap => if startsWhite ps then [] else [.gained]
  else []

def chunkMarks (b : Back) (ps : List (Piece α)) : List Mark :=
  headMark b ps ++ if ps.flatMap Piece.text = [] then [] else [.kept]

def marks : Back → List (Chunk α) → List Mark
  | _, [] => []
  | b, c :: cs =>
    let b := if c.word_break then .fresh else b
    chunkMarks b c.pieces ++ marks (c.pieces.foldl Back.next b) cs

/-- Between kept text and kept text, as many empty fields are gained as lost. -/
def Balanced : Int → List Mark → Prop
  | n, [] => n = 0
  | n, .kept :: ms => n = 0 ∧ Balanced 0 ms
  | n, .lost :: ms => Balanced (n - 1) ms
  | n, .gained :: ms => Balanced (n + 1) ms

instance decidableBalanced : ∀ (n : Int) (ms : List Mark), Decidable (Balanced n ms)
  | n, [] => inferInstanceAs (Decidable (n = 0))
  | n, .kept :: ms =>
    have := decidableBalanced 0 ms
    inferInstanceAs (Decidable (n = 0 ∧ Balanced 0 ms))
  | n, .lost :: ms => decidableBalanced (n - 1) ms
  | n, .gained :: ms => decidableBalanced (n + 1) ms

def State.back : State α → Back
  | .start => .fresh
  | .word _ => .word
  | .gap => .gap

theorem back_go (s : State α) (ps : List (Piece α)) :
    (go s ps).2.back = ps.foldl Back.next s.back := by
  induction ps generalizing s with
  | nil => rfl
  | cons p ps ih =>
    have hstep : (step s p).2.back = s.back.next p := by
      cases p <;> cases s <;> rfl
    rw [go, ih, hstep, foldl_cons]

private theorem replicate_succ_append (n : Nat) (zs : List (List α)) :
    List.replicate (n + 1) [] ++ zs = [] :: (List.replicate n [] ++ zs) := rfl

private theorem replicate_append_nil_cons (n : Nat) (zs : List (List α)) :
    List.replicate n [] ++ [] :: zs = List.replicate (n + 1) [] ++ zs := by
  rw [replicate_succ', append_assoc]
  rfl

/-- Before a field that is not empty, the empty ones can be counted. -/
theorem replicate_append_head {a b} {xs ys : List (List α)}
    (hxs : ∃ g out, xs = g :: out ∧ g ≠ []) (hys : ∃ g out, ys = g :: out ∧ g ≠ []) :
    List.replicate a [] ++ xs = List.replicate b [] ++ ys ↔ a = b ∧ xs = ys := by
  induction a generalizing b with
  | zero =>
    obtain ⟨g, out, rfl, hg⟩ := hxs
    cases b with
    | zero => simp
    | succ b => simp [replicate_succ_append, hg]
  | succ a ih =>
    cases b with
    | zero =>
      obtain ⟨g, out, rfl, hg⟩ := hys
      simp [replicate_succ_append, Ne.symm hg]
    | succ b =>
      rw [replicate_succ_append, replicate_succ_append, List.cons.injEq, ih]
      simp

/-- Lists that agree behind a stretch of empty fields each. -/
theorem replicate_append_cancel {a b} (out : List (List α)) {xs ys : List (List α)} :
    List.replicate a [] ++ (out ++ xs) = List.replicate b [] ++ (out ++ ys) ↔
      if out.flatten = [] then List.replicate a [] ++ xs = List.replicate b [] ++ ys
      else a = b ∧ xs = ys := by
  induction out generalizing a b with
  | nil => simp
  | cons f out ih =>
    cases f with
    | nil =>
      rw [cons_append, cons_append, replicate_append_nil_cons,
        replicate_append_nil_cons, ih]
      simp [replicate_succ_append]
    | cons x f =>
      have hhead : ∀ zs : List (List α), ∃ g rest,
          (x :: f) :: out ++ zs = g :: rest ∧ g ≠ [] :=
        fun zs => ⟨x :: f, out ++ zs, rfl, by simp⟩
      rw [if_neg (by simp), replicate_append_head (hhead xs) (hhead ys)]
      simp

/-- The reader's entry does not disturb a field in progress. -/
def KeepsWord (enter : State α → List (Piece α) → State α) : Prop :=
  ∀ f ps, enter (.word f) ps = .word f

theorem go_word_head (f : List α) (hf : f ≠ []) (ps : List (Piece α)) :
    ((go (.word f) ps).1 = [] ∧ ∃ g, (go (.word f) ps).2 = .word g ∧ g ≠ []) ∨
      ∃ g out, (go (.word f) ps).1 = g :: out ∧ g ≠ [] := by
  induction ps generalizing f with
  | nil => exact .inl ⟨rfl, f, rfl, hf⟩
  | cons p ps ih =>
    cases p with
    | white => exact .inr ⟨f, _, rfl, hf⟩
    | delim => exact .inr ⟨f, _, rfl, hf⟩
    | keep t => exact ih (f ++ t) (by simp [hf])

/-- With text in progress, the next field is not empty. -/
theorem runFrom_word_head {enter}
    (henter : KeepsWord enter) (cs : List (Chunk α)) (f : List α) (hf : f ≠ []) :
    ∃ g out, runFrom enter (.word f) cs = g :: out ∧ g ≠ [] := by
  induction cs generalizing f with
  | nil => exact ⟨f, [], rfl, hf⟩
  | cons c cs ih =>
    rw [runFrom, breakWord]
    cases c.word_break with
    | true => exact ⟨f, _, rfl, hf⟩
    | false =>
      simp only [Bool.false_eq_true, if_false, henter f c.pieces]
      rcases go_word_head f hf c.pieces with ⟨hout, g, hg, hne⟩ | ⟨g, out, hout, hne⟩
      · rw [hout, hg]
        exact ih g hne
      · rw [hout]
        exact ⟨g, _, rfl, hne⟩

theorem runFrom_restart_congr {s t} (h : s.pending = t.pending)
    (cs : List (Chunk α)) : runFrom restart s cs = runFrom restart t cs := by
  have hgap : runFrom restart (.start : State α) cs = runFrom restart .gap cs := by
    cases cs with
    | nil => rfl
    | cons c cs =>
      rw [runFrom, runFrom]
      cases c.word_break <;> rfl
  cases s <;> cases t <;> simp only [State.pending, reduceCtorEq, Option.some.injEq] at h
  · rfl
  · exact hgap
  · rw [h]
  · exact hgap.symm
  · rfl

/-- **One chunk**: entered by restarting, it gives the fields of reading on, but
for the empty field of its head mark. -/
theorem go_restart (s : State α) (ps : List (Piece α)) :
    ∃ (lost gained : Nat) (out : List (List α)),
      (go s ps).1 = List.replicate lost [] ++ out ∧
      (go (restart s ps) ps).1 = List.replicate gained [] ++ out ∧
      (go s ps).2.pending = (go (restart s ps) ps).2.pending ∧
      (s.text ≠ [] → lost = gained) ∧
      ∀ (n : Int) (ms : List Mark), Balanced n (headMark s.back ps ++ ms) ↔
        Balanced (n + gained - lost) ms := by
  obtain ⟨hpending, hout⟩ := go_start_eq_go_gap ps
  cases s with
  | word f =>
    refine ⟨0, 0, (go (.word f) ps).1, rfl, rfl, rfl, fun _ => rfl, fun n ms => ?_⟩
    simp [headMark, State.back]
  | start =>
    cases hwhite : startsWhite ps with
    | false =>
      refine ⟨0, 0, (go .start ps).1, rfl, ?_, ?_, fun _ => rfl, fun n ms => ?_⟩
      · simp [restart, hwhite]
      · simp [restart, hwhite]
      · simp [headMark, State.back, hwhite]
    | true =>
      refine ⟨if startsDelim ps then 1 else 0, 0, (go .gap ps).1, ?_, ?_, ?_,
        fun h => absurd rfl h, fun n ms => ?_⟩
      · rw [hout]
        cases startsDelim ps <;> rfl
      · simp [restart, hwhite]
      · simpa [restart, hwhite] using hpending
      · cases hdelim : startsDelim ps <;>
          simp [headMark, State.back, hwhite, hdelim, Balanced]
  | gap =>
    cases hwhite : startsWhite ps with
    | true =>
      refine ⟨0, 0, (go .gap ps).1, rfl, ?_, ?_, fun _ => rfl, fun n ms => ?_⟩
      · simp [restart, hwhite]
      · simp [restart, hwhite]
      · simp [headMark, State.back, hwhite]
    | false =>
      refine ⟨0, if startsDelim ps then 1 else 0, (go .gap ps).1, rfl, ?_, ?_,
        fun h => absurd rfl h, fun n ms => ?_⟩
      · simp only [restart, hwhite, Bool.false_eq_true, if_false]
        rw [hout]
        cases startsDelim ps <;> rfl
      · simpa [restart, hwhite] using hpending.symm
      · cases hdelim : startsDelim ps <;>
          simp [headMark, State.back, hwhite, hdelim, Balanced]

theorem keepsWord_restart : KeepsWord (restart : State α → _ → _) := fun _ _ => rfl

theorem keepsWord_resume : KeepsWord (resume : State α → _ → _) := fun _ _ => rfl

theorem breakWord_text (brk : Bool) (s : State α) :
    (breakWord brk s).1.flatten ++ (breakWord brk s).2.text = s.text := by
  cases brk <;> cases s <;> simp [breakWord, finish, State.text, State.pending]

theorem breakWord_back (brk : Bool) (s : State α) :
    (breakWord brk s).2.back = if brk then .fresh else s.back := by
  cases brk <;> rfl

/-- What a word break ends is the same for both readers. -/
private theorem cancel_broken {a b gained lost} {broken xs ys : List (List α)}
    (hbroken : broken.flatten ≠ [] → a = b) :
    List.replicate a [] ++ (broken ++ (List.replicate gained [] ++ xs)) =
        List.replicate b [] ++ (broken ++ (List.replicate lost [] ++ ys)) ↔
      List.replicate (a + gained) [] ++ xs = List.replicate (b + lost) [] ++ ys := by
  rw [replicate_append_cancel, replicate_add, replicate_add,
    append_assoc, append_assoc]
  split
  · rfl
  · next hne =>
      rw [hbroken hne, append_cancel_left_eq]
      simp

/-- The comparison, behind as many empty fields as each reader has given since
the last kept text. -/
theorem restart_eq_resume_iff (cs : List (Chunk α)) (s : State α) {a b : Nat}
    (hpend : s.text ≠ [] → a = b) :
    List.replicate a [] ++ runFrom restart s cs =
        List.replicate b [] ++ runFrom resume s cs ↔
      Balanced ((a : Int) - b) (marks s.back cs) := by
  induction cs generalizing s a b with
  | nil =>
    have hab : (a : Int) - b = 0 ↔ a = b := by omega
    rw [runFrom, runFrom, append_left_inj, marks, Balanced, hab]
    simp
  | cons c cs ih =>
    have htext := breakWord_text c.word_break s
    have hback := breakWord_back c.word_break s
    rw [runFrom, runFrom, marks, chunkMarks]
    generalize breakWord c.word_break s = broken at htext hback ⊢
    obtain ⟨broken, s1⟩ := broken
    simp only at htext hback ⊢
    obtain ⟨lost, gained, out, hresume, hrestart, hpending, hcount, hmark⟩ :=
      go_restart s1 c.pieces
    have hkept := go_text s1 c.pieces
    rw [hresume] at hkept
    simp only [flatten_append, flatten_replicate_nil, nil_append]
      at hkept
    have hs1 : s1.text ≠ [] → s.text ≠ [] := by
      intro hne hnil
      rw [hnil, append_eq_nil_iff] at htext
      exact hne htext.2
    have hbroken : broken.flatten ≠ [] → a = b := by
      intro hne
      refine hpend fun hnil => ?_
      rw [hnil, append_eq_nil_iff] at htext
      exact hne htext.1
    have hsum : (a : Int) - b + gained - lost =
        ((a + gained : Nat) : Int) - ((b + lost : Nat) : Int) := by omega
    rw [← hback, ← back_go]
    simp only [append_assoc]
    rw [hmark, hsum, hrestart, runFrom_restart_congr hpending.symm, resume, hresume]
    simp only [append_assoc]
    rw [cancel_broken hbroken, replicate_append_cancel]
    by_cases hnone : c.pieces.flatMap Piece.text = []
    · -- nothing kept here: text that is out, or still pending, was pending before
      rw [if_pos hnone, nil_append]
      rw [hnone, append_nil] at hkept
      have hcounts : s1.text ≠ [] → a + gained = b + lost := by
        intro hne
        rw [hpend (hs1 hne), hcount hne]
      split
      · next hout =>
          rw [hout, nil_append] at hkept
          exact ih _ fun hne => hcounts (hkept ▸ hne)
      · next hout =>
          have heq : a + gained = b + lost := by
            refine hcounts fun hnil => hout ?_
            rw [hnil, append_eq_nil_iff] at hkept
            exact hkept.1
          rw [← ih _ fun _ => heq, heq, append_cancel_left_eq]
          simp
    · rw [if_neg hnone]
      have hzero : ((a + gained : Nat) : Int) - ((b + lost : Nat) : Int) = 0 ↔
          a + gained = b + lost := by omega
      have hrest := ih (go s1 c.pieces).2 (a := 0) (b := 0) fun _ => rfl
      simp only [replicate_zero, nil_append, Int.sub_self]
        at hrest
      rw [singleton_append, Balanced, hzero, ← hrest]
      split
      · next hout =>
          -- the kept text is pending, so the next field is not empty
          rw [hout, nil_append] at hkept
          cases hs2 : (go s1 c.pieces).2 with
          | start | gap => simp [hs2, State.text, State.pending, hnone] at hkept
          | word f =>
            have hf : f ≠ [] := by
              rintro rfl
              simp [hs2, State.text, State.pending, hnone] at hkept
            exact replicate_append_head (runFrom_word_head keepsWord_restart cs f hf)
              (runFrom_word_head keepsWord_resume cs f hf)
      · rfl

/-- **When restarting is harmless**: the fields are found exactly when, between
kept text and kept text, as many empty fields are gained as lost. -/
theorem runFrom_restart_iff (cs : List (Chunk α)) :
    runFrom restart .start cs = chunkFields cs ↔ Balanced 0 (marks .fresh cs) := by
  have h := restart_eq_resume_iff cs (.start : State α) (a := 0) (b := 0) fun _ => rfl
  rw [chunkFields_eq_runFrom]
  exact h

/-! ## Texts without hard delimiters, and without any -/

theorem startsDelim_eq_false {ps : List (Piece α)}
    (h : ∀ p ∈ ps, p.isDelim = false) : startsDelim ps = false := by
  rw [startsDelim]
  cases hskip : skipWhite ps with
  | nil => rfl
  | cons p rest =>
    have hmem : p ∈ skipWhite ps := by simp [hskip]
    exact h p ((dropWhile_suffix _).mem hmem)

/-- Without hard delimiters nothing is lost or gained. -/
theorem balanced_of_no_delim (b : Back) (cs : List (Chunk α))
    (h : ∀ c ∈ cs, ∀ p ∈ c.pieces, p.isDelim = false) : Balanced 0 (marks b cs) := by
  induction cs generalizing b with
  | nil => rfl
  | cons c cs ih =>
    have hrest := ih (c.pieces.foldl Back.next (if c.word_break then .fresh else b))
      fun d hd => h d (by simp [hd])
    have hhead : ∀ b : Back, headMark b c.pieces = [] := by
      intro b
      simp [headMark, startsDelim_eq_false (h c (by simp))]
    rw [marks, chunkMarks, hhead, nil_append]
    split
    · exact hrest
    · exact ⟨rfl, hrest⟩

theorem fields_of_keep {ps : List (Piece α)} (h : ∀ p ∈ ps, p.isKeep = true) :
    fields ps = if ps.isEmpty then [] else [ps.flatMap Piece.text] := by
  have hout : ∀ (f : List α) (qs : List (Piece α)), (∀ p ∈ qs, p.isKeep = true) →
      outFrom (.word f) qs = [f ++ qs.flatMap Piece.text] := by
    intro f qs hqs
    rw [outFrom_word, takeWhile_eq_self_iff.mpr hqs,
      dropWhile_eq_nil_iff.mpr hqs]
    rfl
  rw [fields_eq_outFrom]
  cases ps with
  | nil => rfl
  | cons p ps =>
    cases p with
    | white => exact absurd (h .white (by simp)) (by simp [Piece.isKeep])
    | delim => exact absurd (h .delim (by simp)) (by simp [Piece.isKeep])
    | keep t =>
      have hrest := hout t ps fun p hp => h p (by simp [hp])
      rw [outFrom_cons]
      simpa [step, State.text, State.pending, Piece.text] using hrest

theorem go_of_keep {ps} (h : ∀ p ∈ ps, p.isKeep = true) (hne : ps ≠ [])
    (s : State α) : go s ps = ([], .word (s.text ++ ps.flatMap Piece.text)) := by
  induction ps generalizing s with
  | nil => exact absurd rfl hne
  | cons p ps ih =>
    cases p with
    | white => exact absurd (h .white (by simp)) (by simp [Piece.isKeep])
    | delim => exact absurd (h .delim (by simp)) (by simp [Piece.isKeep])
    | keep t =>
      have hstep : step s (.keep t) = ([], .word (s.text ++ t)) := by cases s <;> rfl
      rw [go, hstep]
      cases ps with
      | nil => simp [Piece.text]
      | cons p ps =>
        have hrest := ih (fun q hq => h q (mem_cons_of_mem _ hq)) nofun
          (.word (s.text ++ t))
        have htext : (State.word (s.text ++ t)).text = s.text ++ t := rfl
        rw [hrest, htext, flatMap_cons, append_assoc]
        rfl

theorem runFrom_restart_keep (s : State α) (c : Chunk α) (cs : List (Chunk α))
    (h : ∀ p ∈ c.pieces, p.isKeep = true) :
    runFrom restart s (c :: cs) = (breakWord c.word_break s).1 ++
      runFrom restart (if c.pieces = [] then (breakWord c.word_break s).2
        else .word ((breakWord c.word_break s).2.text ++ c.pieces.flatMap Piece.text)) cs := by
  rw [runFrom]
  generalize breakWord c.word_break s = broken
  by_cases hnil : c.pieces = []
  · rw [if_pos hnil, hnil]
    dsimp only
    rw [go_nil, append_nil]
    congr 1
    apply runFrom_restart_congr
    cases broken.2 <;> rfl
  · have hwhite : startsWhite c.pieces = false := by
      cases hpieces : c.pieces with
      | nil => exact absurd hpieces hnil
      | cons p ps =>
        have hp := h p (by simp [hpieces])
        cases p with
        | white => cases hp
        | delim => rfl
        | keep t => rfl
    have htext : (restart broken.2 c.pieces).text = broken.2.text := by
      cases broken.2 <;> simp [restart, hwhite, State.text, State.pending]
    rw [if_neg hnil]
    dsimp only
    rw [go_of_keep h hnil, htext, append_nil]

theorem fields_flatten (ps : List (Piece α)) : (fields ps).flatten = ps.flatMap Piece.text := by
  have hfinish : ∀ s : State α, (finish s).flatten = s.text := by
    intro s
    cases s <;> simp [finish, State.text, State.pending]
  rw [fields_eq_outFrom, outFrom, flatten_append, hfinish, go_text]
  rfl

end Ish.Lib.Delimited
