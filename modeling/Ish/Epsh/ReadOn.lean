import Ish.Epsh.Quoting
import Ish.Epsh.Readers

/-!
# What the lexer leaves of its source

However a reader stops, what it leaves is an end of the source it had. The newlines in
the literal text of a word come from the source, so a word and what is left behind it
never have more of them than the source had.
-/

namespace Ish.Epsh

open Ish.Lib List
open Process (Keeps always Returns bind_eq_ok)

variable {α β : Type}

/-! ## Reading on -/

/-- The source of `t` is an end of that of `s`. What is kept between tokens is the same. -/
structure Later (s t : LexerState) : Prop where
  src : t.src <:+ s.src
  nesting : t.nesting = s.nesting
  pushback : t.pushback = s.pushback
  recognize_reserved : t.recognize_reserved = s.recognize_reserved
  pending_heredocs : t.pending_heredocs = s.pending_heredocs

theorem Later.refl (s : LexerState) : Later s s := ⟨suffix_refl s.src, rfl, rfl, rfl, rfl⟩

theorem Later.trans (hst : Later s t) (htu : Later t u) : Later s u where
  src := htu.src.trans hst.src
  nesting := htu.nesting.trans hst.nesting
  pushback := htu.pushback.trans hst.pushback
  recognize_reserved := htu.recognize_reserved.trans hst.recognize_reserved
  pending_heredocs := htu.pending_heredocs.trans hst.pending_heredocs

instance : IsPreorder LexerState Later where
  refl := .refl
  trans _ _ _ := .trans

theorem later_advanced (s : LexerState) : Later s s.advanced := by
  have hsrc : s.advanced.src <:+ s.src := by
    rw [src_advanced]
    exact tail_suffix s.src
  refine ⟨hsrc, ?_, ?_, ?_, ?_⟩
  all_goals
    unfold LexerState.advanced
    split
    · rfl
    · split_ifs <;> rfl

theorem later_skipContinuations (src : List Char) (s : LexerState) :
    Later s (LexerState.skipContinuations src s) := by
  induction src, s using LexerState.skipContinuations.induct with
  | case1 src s ih =>
    rw [LexerState.skipContinuations]
    exact (later_advanced s).trans ((later_advanced s.advanced).trans ih)
  | case2 src s h =>
    rw [LexerState.skipContinuations]
    · exact .refl s
    · exact h

/-- However `x` stops, it has only read on. -/
abbrev ReadsOn (x : LexM α) : Prop := Keeps (always Later) x

@[grind ←]
theorem readsOn_peekChar : ReadsOn peekChar := by
  intro s e t h
  cases h
  exact later_skipContinuations s.src s

@[grind ←]
theorem readsOn_advanceRaw : ReadsOn advanceRaw := by
  intro s e t h
  cases h
  exact later_advanced s

@[grind ←]
theorem readsOn_guarded (span : Span) {x : LexM α} (hx : ReadsOn x) : ReadsOn (guarded span x) := by
  intro s e t h
  unfold guarded at h
  split at h
  · cases h
    exact .refl s
  · obtain ⟨r, hr, h⟩ := Option.map_eq_some_iff.mp h
    cases h
    have hlater : Later { s with nesting := s.nesting + 1 } r.2 := hx _ _ _ hr
    exact { hlater with nesting := rfl }

@[grind ←]
theorem readsOn_currentSpan : ReadsOn currentSpan := by
  unfold currentSpan
  grind

theorem readsOn_nestedResult (base : Span) (result : Except SyntaxError α) :
    ReadsOn (nestedResult base result) := by
  unfold nestedResult
  grind

/-- **A reader only reads on.** -/
@[grind ←]
theorem IsReader.readsOn {x : LexM α} (h : IsReader x) : ReadsOn x := by
  induction h with
  | pure a => exact .pure a
  | fail e => exact .fail e
  | diverge => exact .diverge
  | bind _ _ hx hf => exact .bind hx hf
  | peekChar => exact readsOn_peekChar
  | advanceRaw => exact readsOn_advanceRaw
  | look _ _ hf => exact .bind .get hf
  | guarded span _ hx => exact readsOn_guarded span hx
  | enclosed _ part parse hx =>
    exact .bind readsOn_currentSpan fun _ => .bind hx fun _ => .bind .get fun _ =>
      .map (readsOn_nestedResult _ _)

/-! ## Newlines -/

theorem count_encodeChar (c : Char) : (String.utf8EncodeChar c).count 0x0A = [c].count '\n' := by
  by_cases hc : c = '\n'
  · rw [hc]
    decide
  · have hnot : (0x0A : UInt8) ∉ String.utf8EncodeChar c := fun h =>
      hc (Utf8.eq_of_ascii_mem (by decide) h)
    rw [count_eq_zero_of_not_mem hnot, count_eq_zero_of_not_mem]
    simpa using fun h => hc h.symm

theorem count_rawMark (h : isRawMark c = true) :
    [UInt8.ofNat (c.toNat - PUA_BASE)].count 0x0A = [c].count '\n' := by
  have hc : c ≠ '\n' := by
    rintro rfl
    cases h
  have hb : UInt8.ofNat (c.toNat - PUA_BASE) ≠ 0x0A := by
    simp only [isRawMark, Bool.and_eq_true, decide_eq_true_eq] at h
    intro hb
    have hnat := congrArg UInt8.toNat hb
    rw [UInt8.toNat_ofNat'] at hnat
    simp only [PUA_BASE] at h hnat
    have : (0x0A : UInt8).toNat = 10 := rfl
    omega
  rw [count_singleton, count_singleton]
  simp [hb, hc]

theorem count_strToBytes (text : Text) : (strToBytes text).count 0x0A = text.count '\n' := by
  induction text using strToBytes.induct with
  | case1 => rfl
  | case2 c h =>
    obtain rfl := beq_iff_eq.mp h
    decide
  | case3 c h literal chars ih =>
    obtain rfl := beq_iff_eq.mp h
    rw [strToBytes, if_pos h, count_append, ih, count_encodeChar, ← count_append,
      count_cons_of_ne (by decide), singleton_append]
  | case4 c chars h hraw ih =>
    rw [strToBytes_cons (by simpa using h), if_pos hraw, count_append, ih,
      count_rawMark hraw, ← count_append, singleton_append]
  | case5 c chars h hraw ih =>
    rw [strToBytes_cons (by simpa using h), if_neg hraw, count_append, ih, count_encodeChar,
      ← count_append, singleton_append]

theorem count_bytesToStr (s : ShellBytes) : (bytesToStr s).count '\n' = s.count 0x0A := by
  rw [← count_strToBytes, strToBytes_bytesToStr]

/-- The newlines of a literal part. -/
def literalLines : WordPart → Nat
  | .Literal s => s.count 0x0A
  | _ => 0

/-- The newlines of a part that is literal or quoted. -/
def partLines : WordPart → Nat
  | .Literal s | .SingleQuoted s => s.count 0x0A
  | .DoubleQuoted inner => (inner.map literalLines).sum
  | _ => 0

def lines (parts : List WordPart) : Nat := (parts.map partLines).sum

@[simp] theorem lines_nil : lines [] = 0 := rfl

variable (parts : List WordPart)

@[simp] theorem lines_cons (part : WordPart) :
    lines (part :: parts) = partLines part + lines parts := by
  simp [lines]

@[simp] theorem lines_append (parts parts' : List WordPart) :
    lines (parts ++ parts') = lines parts + lines parts' := by
  simp [lines]

theorem sum_literalLines_le : (parts.map literalLines).sum ≤ lines parts := by
  induction parts with
  | nil => exact Nat.le_refl 0
  | cons part parts ih =>
    have hpart : literalLines part ≤ partLines part := by
      cases part <;> simp [literalLines, partLines]
    simp only [map_cons, sum_cons, lines_cons]
    omega

theorem lines_coalesceFrom (last : WordPart) :
    lines (coalesceFrom last parts) = partLines last + lines parts := by
  induction last, parts using coalesceFrom.induct with
  | case1 last => simp [coalesceFrom]
  | case2 prev s parts ih => 
    simp [coalesceFrom, ih, partLines]
    omega
  | case3 last part parts h ih =>
    rw [coalesceFrom, lines_cons, ih, lines_cons]
    exact h

theorem lines_coalesceLiterals : lines (coalesceLiterals parts) = lines parts := by
  cases parts with
  | nil => rfl
  | cons part parts => rw [coalesceLiterals, lines_coalesceFrom, lines_cons]

/-- The newlines of a word that is being read. -/
def WordAcc.lines (acc : WordAcc) : Nat := Epsh.lines acc.parts + acc.literal.count '\n'

namespace WordAcc

@[simp] theorem lines_push (acc : WordAcc) (c : Char) :
    (acc.push c).lines = acc.lines + [c].count '\n' := by
  simp only [lines, push, count_append]
  omega

@[simp] theorem lines_add (acc : WordAcc) (part : WordPart) :
    (acc.add part).lines = acc.lines + partLines part := by
  simp only [lines, add, lines_append, lines_cons, lines_nil]
  omega

@[simp] theorem lines_quoting (acc : WordAcc) : acc.quoting.lines = acc.lines := rfl

@[simp] theorem lines_flush (acc : WordAcc) : acc.flush.lines = acc.lines := by
  unfold flush
  split
  · rfl
  · simp [lines, partLines, count_strToBytes]

theorem lines_result (acc : WordAcc) : Epsh.lines acc.result.1 = acc.lines := by
  have hliteral : acc.flush.literal = [] := by
    unfold flush
    split
    · exact List.isEmpty_iff.mp ‹_›
    · rfl
  have hflush := acc.lines_flush
  rw [lines, hliteral] at hflush
  rw [result, lines_coalesceLiterals, ← hflush]
  rfl

end WordAcc

/-! ## The newlines a reader uses -/

/-- Started on `src` with `w` newlines in hand, `x` has no more in what it returns and in
what it leaves. -/
def Spends (src : List Char) (w : Nat) (cost : α → Nat) (x : LexM α) : Prop :=
  ∀ s a t, s.src = src → x s = some (.ok a, t) →
    cost a + t.src.count '\n' ≤ w + src.count '\n'

theorem returns_guarded {x : LexM α} (span : Span) (hx : Returns p x) :
    Returns p (guarded span x) := by
  intro s a t h
  unfold guarded at h
  split at h
  · cases h
  · obtain ⟨⟨ending, u⟩, hr, h⟩ := Option.map_eq_some_iff.mp h
    cases h
    exact hx _ a u hr

namespace Spends

variable {src mid : List Char} {w v : Nat} {cost : α → Nat} {price : β → Nat}
  {x : LexM α} {f : α → LexM β}

theorem pure (h : cost a ≤ w) : Spends src w cost (pure a : LexM α) := by
  intro s b t hs hb
  cases hb
  rw [hs]
  exact Nat.add_le_add_right h _

theorem fail (e : SyntaxError) : Spends src w cost (Process.fail e : LexM α) := by
  intro s a t hs h
  cases h

theorem diverge : Spends src w cost (Process.diverge : LexM α) := by
  intro s a t hs h
  cases h

theorem bind (hx : Spends src w cost x) (hf : ∀ a src, Spends src (cost a) price (f a)) :
    Spends src w price (x >>= f) := by
  intro s b t hs h
  obtain ⟨a, u, ha, hb⟩ := bind_eq_ok h
  exact (hf a u.src u b t rfl hb).trans (hx s a u hs ha)

theorem ite {c : Prop} [Decidable c] (hx : c → Spends src w cost x)
    (hy : ¬c → Spends src w cost y) : Spends src w cost (if c then x else y) := by
  split
  · exact hx ‹_›
  · exact hy ‹_›

theorem then_readsOn (hx : ReadsOn x) (hf : ∀ a src, Spends src w price (f a)) :
    Spends src w price (x >>= f) := by
  suffices hkeeps : Spends src w (fun _ => w) x from bind hkeeps hf
  intro s a t hs h
  have hlater : Later s t := hx s _ t h
  rw [← hs]
  exact Nat.add_le_add_left (hlater.src.sublist.count_le _) w

/-- A character that is read can be kept. -/
theorem then_reads (hx : Reads x src a mid) (hf : Spends mid v price (f a))
    (h : v + mid.count '\n' ≤ w + src.count '\n') : Spends src w price (x >>= f) := by
  intro s b t hs hb
  obtain ⟨u, hrun, hu⟩ := hx s hs
  rw [Process.bind_ok hrun] at hb
  exact (hf u b t hu hb).trans h

end Spends

theorem Spends.add {cost : α → Nat} {x : LexM α} (k : Nat)
    (hx : Spends src w cost x) : Spends src (k + w) (fun a => k + cost a) x := by
  intro s a t hs h
  have hspent := hx s a t hs h
  dsimp only
  omega

theorem atContinuation_skipContinuations (src : List Char) (s : LexerState) (hs : s.src = src) :
    atContinuation (LexerState.skipContinuations src s).src = false := by
  induction src, s using LexerState.skipContinuations.induct with
  | case1 src s ih =>
    rw [LexerState.skipContinuations]
    exact ih (by rw [src_advanced, src_advanced, hs]; rfl)
  | case2 src s h =>
    rw [LexerState.skipContinuations]
    · rw [hs]
      unfold atContinuation
      split
      · exact (h _ rfl).elim
      · rfl
    · exact h

/-- After a look at the next character the source does not start with a continuation. -/
theorem Spends.then_peek {price : β → Nat} {f : Option Char → LexM β}
    (hf : ∀ src, atContinuation src = false → Spends src w price (f src.head?))
    (src : List Char) : Spends src w price (peekChar >>= f) := by
  intro s b t hs h
  obtain ⟨a, u, hpeek, hb⟩ := bind_eq_ok h
  cases hpeek
  have hlater : Later s s.atChar := later_skipContinuations s.src s
  have hcontinuation := atContinuation_skipContinuations s.src s rfl
  have hspent := hf s.atChar.src hcontinuation s.atChar b t rfl hb
  rw [← hs]
  exact hspent.trans (Nat.add_le_add_left (hlater.src.sublist.count_le _) w)

/-- What is read was in front of what is left. -/
theorem advance_src {s t next}
    (h : advance s = some (.ok next, t)) : next.toList ++ t.src <:+ s.src := by
  obtain ⟨c, u, hpeek, hread⟩ := bind_eq_ok h
  have hlater : Later s u := readsOn_peekChar s _ u hpeek
  cases c with
  | none =>
    cases hread
    exact hlater.src
  | some c =>
    cases hread
    change u.src.head?.toList ++ u.advanced.src <:+ s.src
    rw [src_advanced]
    cases hsrc : u.src with
    | nil => exact nil_suffix
    | cons c src =>
      have hsuffix := hlater.src
      rw [hsrc] at hsuffix
      exact hsuffix

theorem spends_advance (w : Nat) (src : List Char) :
    Spends src w (fun next => w + next.toList.count '\n') advance := by
  intro s next t hs h
  have hcount := (advance_src h).sublist.count_le '\n'
  rw [count_append] at hcount
  rw [← hs]
  dsimp only
  omega

theorem reads_advanceRaw_end : Reads advanceRaw [] none [] := by
  intro s hs
  refine ⟨s.advanced, ?_, by rw [src_advanced, hs, tail_nil]⟩
  change some (Ending.ok s.src.head?, s.advanced) = _
  rw [hs]
  rfl

theorem spends_readSingleQuoted (span : Span) (n : Nat) (content : Text) (src : List Char) :
    Spends src (content.count '\n') (fun content => content.count '\n')
      (readSingleQuoted span n content) := by
  induction n generalizing content src with
  | zero => exact .diverge
  | succ n ih =>
    unfold readSingleQuoted
    cases src with
    | nil => exact .then_reads reads_advanceRaw_end (.fail _) (Nat.le_refl _)
    | cons c src =>
      by_cases hc : c = '\''
      · refine .then_reads (reads_advanceRaw c src) (v := content.count '\n') ?_ ?_
        · rw [hc]
          exact .pure (Nat.le_refl _)
        · exact Nat.add_le_add_left (count_le_count_cons) _
      · refine .then_reads (reads_advanceRaw c src) (v := (content ++ [c]).count '\n') ?_ ?_
        · split
          · rename_i heq
            cases heq
          · rename_i heq
            exact absurd (Option.some.inj heq) hc
          · rename_i heq
            rw [← Option.some.inj heq]
            exact ih _ _
        · simp only [count_append, count_cons, count_nil]
          omega

theorem spends_advance_continuation (w : Nat) (src : List Char) :
    Spends ('\\' :: '\n' :: src) w (fun next => 1 + (w + next.toList.count '\n')) advance := by
  intro s next t hs h
  obtain ⟨c, u, hpeek, hread⟩ := bind_eq_ok h
  have hu : u.src <:+ src := by
    cases hpeek
    change (LexerState.skipContinuations s.src s).src <:+ src
    have hlater := (later_skipContinuations src s.advanced.advanced).src
    rw [src_advanced, src_advanced, hs] at hlater
    rw [hs, LexerState.skipContinuations]
    exact hlater
  have hnext : next.toList ++ t.src <:+ u.src := by
    cases c with
    | none =>
      cases hread
      exact suffix_refl _
    | some c =>
      cases hread
      change u.src.head?.toList ++ u.advanced.src <:+ u.src
      rw [src_advanced]
      cases hsrc : u.src with
      | nil => exact nil_suffix
      | cons c src => exact suffix_refl _
  have hcount := (hnext.trans hu).sublist.count_le '\n'
  simp only [count_append, count_cons, beq_self_eq_true, if_true,
    show ('\\' == '\n') = false from rfl, Bool.false_eq_true, if_false] at hcount ⊢
  omega

section

variable {acc : WordAcc} {src : List Char} {k : Nat}

/-- `k` newlines are lost if they are when the escaped character is read. -/
theorem spends_readDquoteEscape
    (h : Spends src acc.lines (fun next => k + (acc.lines + next.toList.count '\n')) advance) :
    Spends src acc.lines (fun acc => k + acc.lines) (readDquoteEscape .Word acc) := by
  refine .bind h fun next src => ?_
  cases next with
  | none => exact .pure (Nat.le_refl _)
  | some c =>
    refine .ite (fun h => nomatch h.1) fun _ => .ite (fun _ => .pure ?_) fun _ => .pure ?_
    · refine Nat.add_le_add_left ?_ k
      split
      · exact Nat.le_add_right _ _
      · exact Nat.le_of_eq (acc.lines_push c)
    · rw [WordAcc.lines_push, WordAcc.lines_push]
      exact Nat.le_refl _

theorem spends_readEscape
    (h : Spends src acc.lines (fun next => k + (acc.lines + next.toList.count '\n')) advance) :
    Spends src acc.lines (fun acc => k + acc.lines) (readEscape .Word acc) := by
  refine .bind h fun next src => ?_
  cases next with
  | none => exact .pure (Nat.le_refl _)
  | some c =>
    refine .ite (fun h => nomatch h) fun _ => ?_
    have hadd (literal : Option Char) (src : List Char) :
        Spends src (k + (acc.lines + [c].count '\n') + literal.toList.count '\n')
          (fun acc => k + acc.lines)
          (pure (acc.flush.add (.DoubleQuoted [.Literal (strToBytes (c :: literal.toList))]))) := by
      refine .pure ?_
      simp only [WordAcc.lines_add, WordAcc.lines_flush, partLines, map_singleton,
        sum_singleton, literalLines, count_strToBytes]
      rw [← singleton_append, count_append]
      omega
    exact .ite (fun _ => .bind (spends_advance _ src) hadd) fun _ => hadd none src

end

/-! ### Words -/

section

variable (nested : Nested) (span : Span)

/-- A part that stands for what it expands to. -/
def isExpansion : WordPart → Bool
  | .Param _ | .CmdSubst _ | .Backtick _ | .Arith _ => true
  | _ => false

abbrev IsExpansion (part : WordPart) : Prop := isExpansion part = true

theorem IsExpansion.ne_literal {part} (h : IsExpansion part) (s : ShellBytes) :
    part ≠ .Literal s := by
  rintro rfl
  cases h

theorem IsExpansion.partLines {part} (h : IsExpansion part) : partLines part = 0 := by
  cases part <;> first | rfl | cases h

theorem returns_readBraceParam (in_dquote : Bool) (n : Nat) :
    Returns IsExpansion (readBraceParam nested span in_dquote n) := by
  cases n with
  | zero => exact .diverge
  | succ n =>
    unfold readBraceParam
    refine returns_guarded span (.bind fun _ => .bind fun s => ?_)
    dsimp only
    refine .ite (fun _ => .bind fun _ => ?_) fun _ => ?_
    all_goals
      refine .bind fun name => .ite (fun _ => .bind fun _ => .pure rfl) fun _ => .bind fun next => ?_
      split
      · exact .bind fun _ => .pure rfl
      · exact .fail _
      · refine .bind fun _ => .bind fun op => ?_
        cases op with
        | some op => exact .pure rfl
        | none => exact .bind fun _ => .pure rfl

theorem returns_readDollar (in_dquote : Bool) (n : Nat) :
    Returns (fun part : Option WordPart => ∀ p ∈ part, IsExpansion p)
      (readDollar nested span in_dquote n) := by
  have hsome (part : WordPart) (h : IsExpansion part) : ∀ p ∈ some part, IsExpansion p := by
    rintro p ⟨⟩
    exact h
  cases n with
  | zero => exact .diverge
  | succ n =>
    unfold readDollar
    refine .bind fun next => ?_
    split
    · exact .bind fun _ => .map (returns_readBraceParam nested span in_dquote n) hsome
    · refine .bind fun _ => .bind fun next => ?_
      split
      · refine .bind fun _ => .map (returns_guarded span (.bind fun _ => .bind fun _ => .bind fun _ => ?_))
          hsome
        exact .map (.of_forall (p := fun _ => True) (fun _ => trivial) _) fun _ _ => rfl
      · refine .map (.bind fun _ => .bind fun _ => .bind fun _ => ?_) hsome
        exact .map (.of_forall (p := fun _ => True) (fun _ => trivial) _) fun _ _ => rfl
    · refine .ite (fun _ => .bind fun _ => .pure (hsome _ rfl)) fun _ => ?_
      exact .ite (fun _ => .bind fun _ => .bind fun _ => .pure (hsome _ rfl)) fun _ => .pure (by rintro p ⟨⟩)
    · exact .pure (by rintro p ⟨⟩)

theorem returns_readBacktickPart (n : Nat) : Returns IsExpansion (readBacktickPart nested n span) :=
  .bind fun _ => .bind fun _ => .bind fun _ =>
    .map (.of_forall (p := fun _ => True) (fun _ => trivial) _) fun _ _ => rfl

/-- A reader whose parts have no newlines leaves those in hand. -/
theorem Spends.then_returns {p : α → Prop}
    {x : LexM α} {f : α → LexM β} (hx : ReadsOn x) (hp : Returns p x)
    (hf : ∀ a src, p a → Spends src w price (f a)) : Spends src w price (x >>= f) := by
  intro s b t hs h
  obtain ⟨a, u, ha, hb⟩ := bind_eq_ok h
  have hlater : Later s u := hx s _ u ha
  rw [← hs]
  exact (hf a u.src (hp s a u ha) u b t rfl hb).trans
    (Nat.add_le_add_left (hlater.src.sublist.count_le _) w)

/-- What the readers of a word with fuel `n` spend. -/
structure SpendsLines (n : Nat) : Prop where
  loop : ∀ in_dquote acc src, Spends src acc.lines (fun result => lines result.1)
    (readWordLoop nested span .Word in_dquote n acc)
  part : ∀ in_dquote acc c src, atContinuation (c :: src) = false →
    Spends (c :: src) acc.lines WordAcc.lines (readWordPart nested span .Word in_dquote n acc c)
  dquote : ∀ src, Spends src 0 (fun parts => (parts.map literalLines).sum)
    (readDquoteParts nested span n)

theorem spendsLines (n : Nat) : SpendsLines nested span n := by
  induction n with
  | zero => constructor <;> intros <;> exact .diverge
  | succ n ih =>
    constructor
    · intro in_dquote acc src
      unfold readWordLoop
      refine .then_peek (fun src hcontinuation => ?_) src
      have hresult : lines acc.result.1 ≤ acc.lines := Nat.le_of_eq acc.lines_result
      cases src with
      | nil => exact .ite (fun h => by cases h) fun _ => .pure hresult
      | cons c src =>
        refine .ite (fun _ => .pure hresult) fun _ => .ite (fun h => by cases h.1) fun _ => ?_
        exact .bind (ih.part in_dquote acc c src hcontinuation) fun acc src =>
          ih.loop in_dquote acc src
    · intro in_dquote acc c src hcontinuation
      -- a character that is kept comes out of the source
      have hpush (acc : WordAcc) : Spends (c :: src) acc.lines WordAcc.lines
          (skipChar >>= fun _ => pure (acc.push c)) := by
        refine .then_reads (reads_skip hcontinuation) (v := (acc.push c).lines)
          (.pure (Nat.le_refl _)) ?_
        simp only [WordAcc.lines_push, count_cons, count_nil]
        omega
      have hskip := reader_skipChar.readsOn
      unfold readWordPart
      split
      · exact .diverge
      · rename_i acc _ _ _ _ hn
        obtain rfl := Nat.succ.inj hn
        cases in_dquote with
        | true => exact hpush acc
        | false =>
          refine .then_readsOn hskip fun _ src => ?_
          refine .bind ((ih.dquote src).add acc.lines) fun inner src => .pure ?_
          rw [WordAcc.lines_add, WordAcc.lines_quoting, WordAcc.lines_flush]
          exact Nat.le_refl _
      · rename_i acc _ _ _ _ hn
        cases in_dquote with
        | true => exact hpush acc
        | false =>
          refine .then_readsOn readsOn_advanceRaw fun _ src => ?_
          refine .bind ((spends_readSingleQuoted span _ [] src).add acc.lines)
            fun content src => .pure ?_
          rw [WordAcc.lines_add, WordAcc.lines_quoting, WordAcc.lines_flush]
          exact Nat.le_of_eq (congrArg (acc.lines + ·) (count_strToBytes content))
      · rename_i acc _ _ _ _ hn
        refine .then_readsOn hskip fun _ src => ?_
        have hadvance : Spends src acc.quoting.lines
            (fun next => 0 + (acc.quoting.lines + next.toList.count '\n')) advance := by
          simpa only [Nat.zero_add] using spends_advance acc.quoting.lines src
        cases in_dquote with
        | true =>
          have hescape := spends_readDquoteEscape hadvance
          simp only [Nat.zero_add] at hescape
          exact hescape
        | false =>
          have hescape := spends_readEscape hadvance
          simp only [Nat.zero_add] at hescape
          exact hescape
      · rename_i acc _ _ _ _ hn
        obtain rfl := Nat.succ.inj hn
        refine .then_reads (reads_skip hcontinuation) (v := (acc.push '$').lines) ?_ ?_
        · refine .then_returns ((reader_words nested span n).dollar in_dquote).readsOn
            (returns_readDollar nested span in_dquote n) fun part src hpart => ?_
          cases part with
          | none => exact .pure (by rw [WordAcc.lines_push, WordAcc.lines_push, WordAcc.lines_flush])
          | some part =>
            refine .pure ?_
            rw [WordAcc.lines_add, WordAcc.lines_flush, (hpart part rfl).partLines, WordAcc.lines_push]
            exact Nat.le_add_right _ _
        · rw [WordAcc.lines_push]
          exact Nat.le_refl _
      · rename_i acc _ _ _ _ hn
        obtain rfl := Nat.succ.inj hn
        refine .then_readsOn hskip fun _ src => ?_
        refine .then_returns (reader_readBacktickPart nested span n).readsOn
          (returns_readBacktickPart nested span n) fun part src hpart => .pure ?_
        rw [WordAcc.lines_add, WordAcc.lines_flush, hpart.partLines]
        exact Nat.le_refl _
      · rename_i acc c _ _ _ _ _ _ _ _ _ _
        by_cases htilde : c = '~' ∧ WordCtx.Word = WordCtx.Word ∧ (!in_dquote) = true ∧
            acc.isBlank = true
        · refine .then_readsOn hskip fun _ src => .ite (fun _ => ?_) fun h => absurd htilde h
          exact .then_readsOn (reader_takeChars _ _ _).readsOn fun user src => .pure
            (Nat.le_of_eq (acc.lines_add _))
        · rw [if_neg htilde]
          exact hpush acc
    · intro src
      unfold readDquoteParts
      refine .bind (ih.loop true { had_quoting := true } src) fun result src => ?_
      refine .then_peek (fun src _ => ?_) src
      split
      · exact .then_readsOn reader_skipChar.readsOn fun _ src => .pure (sum_literalLines_le result.1)
      · exact .fail _

end

end Ish.Epsh
