import Ish.Epsh.Lexer

/-!
# The readers of the lexer

The readers of words and of their parts are built from few computations: they look at the
next characters, take them, and give enclosed text to the parser. What holds of these, and
is kept by sequences, holds of every reader.
-/

namespace Ish.Epsh

open Ish.Lib

/-- What the readers are built from. -/
inductive IsReader : {α : Type} → LexM α → Prop where
  | pure (a : α) : IsReader (pure a)
  | fail (e : SyntaxError) : IsReader (Process.fail e : LexM α)
  | diverge : IsReader (Process.diverge : LexM α)
  | bind {x : LexM α} {f : α → LexM β} (hx : IsReader x) (hf : ∀ a, IsReader (f a)) :
      IsReader (x >>= f)
  | peekChar : IsReader peekChar
  | advanceRaw : IsReader advanceRaw
  | look {f : LexerState → LexM α} (hsrc : ∀ s t, s.src = t.src → f s = f t)
      (hf : ∀ s, IsReader (f s)) : IsReader (get >>= f)
  | guarded (span : Span) {x : LexM α} (hx : IsReader x) : IsReader (guarded span x)
  | enclosed {x : LexM Text} (hx : IsReader x) (part : α → WordPart)
      (parse : Nat → Text → Except SyntaxError α) :
      IsReader (currentSpan >>= fun base => x >>= fun content =>
        get >>= fun s : LexerState => part <$> nestedResult base (parse s.nesting content))

variable {α β : Type}

attribute [grind ←] IsReader.pure IsReader.fail IsReader.diverge IsReader.bind IsReader.peekChar
  IsReader.advanceRaw

namespace IsReader

theorem ite {p : Prop} [Decidable p] {x y : LexM α} (hx : p → IsReader x) (hy : ¬ p → IsReader y) :
    IsReader (if p then x else y) := by
  split
  · exact hx ‹_›
  · exact hy ‹_›

@[grind ←]
theorem map {x} {f : α → β} (hx : IsReader x) : IsReader (f <$> x) := by
  rw [map_eq_pure_bind]
  exact .bind hx fun _ => .pure _

end IsReader

@[grind ←]
theorem reader_advance : IsReader advance := by
  unfold advance
  grind

@[grind ←]
theorem reader_skipChar : IsReader skipChar := by
  unfold skipChar
  grind

@[grind ←]
theorem reader_lexError (msg : Text) (span : Span) : IsReader (lexError msg span : LexM α) := by
  exact .fail _

@[grind ←]
theorem reader_takeChars (p : Char → Bool) (n : Nat) (text : Text) :
    IsReader (takeChars p n text) := by
  induction n generalizing text with
  | zero => exact .diverge
  | succ n ih =>
    unfold takeChars
    grind

@[grind ←]
theorem reader_readParamName (n : Nat) : IsReader (readParamName n) := by
  unfold readParamName
  grind

@[grind ←]
theorem reader_peekRaw : IsReader peekRaw := by
  exact .look (fun s t h => by rw [h]) fun s => .pure s.src.head?

/-! ## Raw scans -/

@[grind ←]
theorem reader_unbalancedArithClose (depth : Nat) (span : Span) :
    IsReader (unbalancedArithClose depth span) := by
  unfold unbalancedArithClose
  exact .ite (fun _ => .fail _) fun _ => .pure _

@[grind ←]
theorem reader_readSingleQuotedRaw (span : Span) (n : Nat) (content : Text) :
    IsReader (readSingleQuotedRaw span n content) := by
  induction n generalizing content with
  | zero => exact .diverge
  | succ n ih =>
    unfold readSingleQuotedRaw
    grind

@[grind ←]
theorem reader_readEscapedRaw (content : Text) : IsReader (readEscapedRaw content) := by
  unfold readEscapedRaw
  grind

@[grind ←]
theorem reader_readBacktickRaw (span : Span) (n : Nat) (content : Text) :
    IsReader (readBacktickRaw span n content) := by
  induction n generalizing content with
  | zero => exact .diverge
  | succ n ih =>
    unfold readBacktickRaw
    grind

@[grind ←]
theorem reader_readCommentRaw {peek step} (hpeek : IsReader peek)
    (hstep : IsReader step) (n : Nat) (content : Text) :
    IsReader (readCommentRaw peek step n content) := by
  induction n generalizing content with
  | zero => exact .diverge
  | succ n ih =>
    unfold readCommentRaw
    grind

/-- What the raw scans with fuel `n` keep. -/
structure RawScans (span : Span) (n : Nat) : Prop where
  doubleQuoted : ∀ content, IsReader (readDoubleQuotedRaw span n content)
  dollar : ∀ content, IsReader (readDollarRaw span n content)
  braceParam : ∀ depth content, IsReader (readBraceParamRaw span n depth content)
  cmdSubst : ∀ depth content, IsReader (readCmdSubstNestedRaw span n depth content)
  arith : ∀ depth content, IsReader (readArithRaw span n depth content)

theorem reader_rawScans (span : Span) (n : Nat) : RawScans span n := by
  induction n with
  | zero => constructor <;> intros <;> exact .diverge
  | succ n ih =>
    obtain ⟨hdouble, hdollar, hbrace, hcmd, harith⟩ := ih
    constructor
    · intro content
      unfold readDoubleQuotedRaw
      grind
    · intro content
      unfold readDollarRaw
      refine IsReader.guarded span ?_
      grind
    · intro depth content
      unfold readBraceParamRaw
      grind
    · intro depth content
      unfold readCmdSubstNestedRaw
      grind
    · intro depth content
      unfold readArithRaw
      grind

@[grind ←]
theorem reader_readDollarRaw (span : Span) (n : Nat) (content : Text) :
    IsReader (readDollarRaw span n content) :=
  (reader_rawScans span n).dollar content

@[grind ←]
theorem reader_readDoubleQuotedRaw (span : Span) (n : Nat) (content : Text) :
    IsReader (readDoubleQuotedRaw span n content) :=
  (reader_rawScans span n).doubleQuoted content

@[grind ←]
theorem reader_readCmdSubstRaw (span : Span) (n depth : Nat) (content : Text) :
    IsReader (readCmdSubstRaw span n depth content) := by
  induction n generalizing depth content with
  | zero => exact .diverge
  | succ n ih =>
    unfold readCmdSubstRaw
    grind

/-! ## Words -/

@[grind ←]
theorem reader_readSingleQuoted (span : Span) (n : Nat) (content : Text) :
    IsReader (readSingleQuoted span n content) := by
  induction n generalizing content with
  | zero => exact .diverge
  | succ n ih =>
    unfold readSingleQuoted
    grind

@[grind ←]
theorem reader_readDquoteEscape (ctx : WordCtx) (acc : WordAcc) :
    IsReader (readDquoteEscape ctx acc) := by
  unfold readDquoteEscape
  grind

@[grind ←]
theorem reader_readEscape (ctx : WordCtx) (acc : WordAcc) : IsReader (readEscape ctx acc) := by
  unfold readEscape
  grind

@[grind ←]
theorem reader_skipToCloseBrace (span : Span) (n : Nat) : IsReader (skipToCloseBrace span n) := by
  induction n with
  | zero => exact .diverge
  | succ n ih =>
    unfold skipToCloseBrace
    grind

@[grind ←]
theorem reader_readBacktickText (span : Span) (n : Nat) (content : Text) :
    IsReader (readBacktickText span n content) := by
  induction n generalizing content with
  | zero => exact .diverge
  | succ n ih =>
    unfold readBacktickText
    grind

@[grind ←]
theorem reader_readArithText (span : Span) (n depth : Nat) (content : Text) :
    IsReader (readArithText span n depth content) := by
  induction n generalizing depth content with
  | zero => exact .diverge
  | succ n ih =>
    unfold readArithText
    grind

section

variable (nested : Nested) (span : Span)

@[grind ←]
theorem reader_readCmdSubst (n : Nat) : IsReader (readCmdSubst nested n span) := by
  exact .enclosed (reader_readCmdSubstRaw span n 1 []) .CmdSubst nested.parseCmdsubstContent

@[grind ←]
theorem reader_readBacktickPart (n : Nat) : IsReader (readBacktickPart nested n span) := by
  exact .enclosed (reader_readBacktickText span n []) .Backtick nested.parseCmdsubstContent

@[grind ←]
theorem reader_readArithExpansion (n : Nat) : IsReader (readArithExpansion nested n span) := by
  exact .guarded span (.enclosed (reader_readArithText span n 1 []) .Arith nested.parseWordPartsShell)

/-- What the readers of words and their parts with fuel `n` keep. -/
structure WordReaders (n : Nat) : Prop where
  loop : ∀ ctx in_dquote acc, IsReader (readWordLoop nested span ctx in_dquote n acc)
  part : ∀ ctx in_dquote acc c, IsReader (readWordPart nested span ctx in_dquote n acc c)
  dquote : IsReader (readDquoteParts nested span n)
  dollar : ∀ in_dquote, IsReader (readDollar nested span in_dquote n)
  braceParam : ∀ in_dquote, IsReader (readBraceParam nested span in_dquote n)
  paramOp : ∀ in_dquote c, IsReader (readParamOp nested span in_dquote n c)
  toggle : ∀ parts literal, IsReader (readBraceDquoteToggleParts nested span n parts literal)

theorem reader_words (n : Nat) : WordReaders nested span n := by
  induction n with
  | zero => constructor <;> intros <;> exact .diverge
  | succ n ih =>
    obtain ⟨hloop, hpart, hdquote, hdollar, hbrace, hop, htoggle⟩ := ih
    constructor
    · intro ctx in_dquote acc
      unfold readWordLoop
      refine .bind .peekChar fun next => ?_
      cases next with
      | none => exact .ite (fun _ => .fail _) fun _ => .pure _
      | some c =>
        refine .ite (fun _ => .pure _) fun _ => .ite (fun _ => ?_) fun _ =>
          .bind (hpart _ _ _ _) fun _ => hloop _ _ _
        exact .bind reader_skipChar fun _ => .ite (fun _ => .pure _) fun _ => hloop _ _ _
    · intro ctx in_dquote acc c
      unfold readWordPart
      split
      · exact .diverge
      · rename_i hn
        obtain rfl := Nat.succ.inj hn
        refine .bind reader_skipChar fun _ => .ite (fun _ => ?_) fun _ => .ite (fun _ => ?_) ?_
        · exact .bind hdquote fun _ => .pure _
        · exact .bind (htoggle _ _) fun _ => .pure _
        · exact fun _ => .pure _
      · refine .ite (fun _ => .bind reader_skipChar fun _ => .pure _) fun _ => ?_
        exact .bind .advanceRaw fun _ =>
          .bind (reader_readSingleQuoted _ _ _) fun _ => .pure _
      · refine .bind reader_skipChar fun _ => .ite (fun _ => ?_) fun _ => ?_
        · exact reader_readDquoteEscape _ _
        · exact reader_readEscape _ _
      · rename_i hn
        obtain rfl := Nat.succ.inj hn
        refine .bind reader_skipChar fun _ => .bind (hdollar _) fun part => ?_
        cases part <;> exact .pure _
      · exact .bind reader_skipChar fun _ =>
          .bind (reader_readBacktickPart nested span _) fun _ => .pure _
      · refine .bind reader_skipChar fun _ => .ite (fun _ => ?_) fun _ => .pure _
        exact .bind (reader_takeChars _ _ _) fun _ => .pure _
    · unfold readDquoteParts
      grind
    · intro in_dquote
      unfold readDollar
      grind
    · intro in_dquote
      unfold readBraceParam
      refine .guarded span (.bind .peekChar fun _ => .look (fun s t h => by rw [h]) fun s => ?_)
      dsimp only
      have hlength (name : Text) : IsReader (skipToCloseBrace span n >>= fun _ =>
          (pure (.Param ⟨name, .Length, {}⟩) : LexM WordPart)) :=
        .bind (reader_skipToCloseBrace _ _) fun _ => .pure _
      refine .ite (fun hlen => .bind reader_skipChar fun _ => ?_) fun hlen => ?_
      · exact .bind (reader_readParamName n) fun name =>
          .ite (fun _ => hlength name) fun h => absurd hlen h
      · refine .bind (reader_readParamName n) fun name => .ite (fun h => absurd h hlen) fun _ => ?_
        refine .bind .peekChar fun next => ?_
        split
        · exact .bind reader_skipChar fun _ => .pure _
        · exact .fail _
        · refine .bind reader_skipChar fun _ => .bind (hop _ _) fun op => ?_
          cases op with
          | some op => exact .pure _
          | none => exact .bind (reader_skipToCloseBrace _ _) fun _ => .pure _
    · intro in_dquote c
      unfold readParamOp
      grind
    · intro parts literal
      unfold readBraceDquoteToggleParts
      grind

end

end Ish.Epsh
