import Ish.Editor.LineBuffer
import Ish.Epsh.Units

/-!
# Completion — inserting a candidate

The model of `preview_completion` in `src/editor.rs`, with the scan for the start of the
word there and `needs_quoting` in `src/complete.rs`.
-/

namespace Ish.Editor

open Ish.Lib

/-! ## Candidates -/

/-- `CompletionEntry`, with the place of its name among the names. -/
structure CompletionEntry where
  name_start : Nat
  name_len : Nat
  flags : UInt8
  deriving DecidableEq

namespace CompletionEntry

def isDir (entry : CompletionEntry) : Bool := entry.flags &&& 1 != 0

def isHost (entry : CompletionEntry) : Bool := entry.flags &&& 8 != 0

/-- What is put behind the name. -/
def mark (entry : CompletionEntry) : List Char :=
  if entry.isDir then ['/'] else if entry.isHost then [':'] else []

end CompletionEntry

structure Completions where
  names : List Char
  entries : List CompletionEntry

/-- `entry_name` -/
def Completions.entryName (comp : Completions) (entry : CompletionEntry) : List Char :=
  (splitBytes (splitBytes comp.names entry.name_start).2 entry.name_len).1

structure CompletionState where
  comp : Completions
  selected : Nat
  /-- the directory in front of the candidates, as it was typed -/
  dir_prefix : List Char
  in_quote : Bool

namespace CompletionState

variable (state : CompletionState)

def selectedEntry : Option CompletionEntry := state.comp.entries[state.selected]?

def selectedName : Option (List Char) := state.selectedEntry.map state.comp.entryName

/-- The name that is inserted for a candidate. -/
def inner (entry : CompletionEntry) : List Char :=
  state.dir_prefix ++ state.comp.entryName entry ++ entry.mark

end CompletionState

/-! ## The start of the word -/

/-- Where a scan of the line is: outside quotes, or in some. -/
structure WordScan where
  word_start : Nat := 0
  in_single : Bool := false
  in_double : Bool := false
  deriving DecidableEq

namespace WordScan

/-- The loop of `find_comp_word_start`, at the offset `i`. -/
def go : List UInt8 → Nat → WordScan → WordScan
  | [], _, scan => scan
  | b :: bytes, i, scan =>
    if b = 0x27 ∧ !scan.in_double then
      go bytes (i + 1) { scan with in_single := !scan.in_single }
    else if b = 0x22 ∧ !scan.in_single then
      go bytes (i + 1) { scan with in_double := !scan.in_double }
    else if b = 0x5C ∧ !scan.in_single then
      match bytes with
      | [] => scan
      | _ :: bytes => go bytes (i + 2) scan
    else if (b = 0x20 ∨ b = 0x09 ∨ b = 0x0A) ∧ !scan.in_single ∧ !scan.in_double then
      go bytes (i + 1) { scan with word_start := i + 1 }
    else go bytes (i + 1) scan

end WordScan

def findCompWordStart (text : List Char) : WordScan := WordScan.go (Utf8.encode text) 0 {}

/-! ## The text that is inserted -/

/-- The bytes for which `needs_quoting` asks for quotes. -/
def QUOTED_BYTES : List UInt8 :=
  [0x20, 0x09, 0x28, 0x29, 0x24, 0x2A, 0x3F, 0x5B, 0x5D, 0x7C, 0x26, 0x3E, 0x3C, 0x3B, 0x23, 0x5C,
    0x22, 0x60]

/-- `needs_quoting` -/
def needsQuoting (s : List Char) : Bool := (Utf8.encode s).any QUOTED_BYTES.contains

/-- `inner.replace('\'', "'\\''")` -/
def escapeQuotes (s : List Char) : List Char :=
  s.flatMap fun c => if c = '\'' then ['\'', '\\', '\'', '\''] else [c]

/-- Whether a name is inserted in quotes. -/
def isQuoted (in_quote : Bool) (inner : List Char) : Bool :=
  in_quote || needsQuoting inner || inner.contains '\''

/-- What is inserted for a name. -/
def replacement (in_quote : Bool) (inner : List Char) : List Char :=
  if isQuoted in_quote inner then
    match escapeQuotes inner with
    | '~' :: '/' :: rest => '~' :: '/' :: '\'' :: rest ++ ['\'']
    | escaped => '\'' :: escaped ++ ['\'']
  else inner

/-- `preview_completion` -/
def previewCompletion (line : LineBuffer) (state : CompletionState) (base_line : LineBuffer) :
    LineBuffer :=
  match state.selectedEntry, state.selectedName with
  | some entry, some name =>
    let word_start := (findCompWordStart base_line.before).word_start
    let inner := state.dir_prefix ++ name ++ entry.mark
    let word := replacement state.in_quote inner
    line.setWithCursor ((splitBytes base_line.buf word_start).1 ++ word ++ base_line.after)
      (word_start + byteLen word)
  | _, _ => base_line

/-! ## Where the word starts -/

/-- An ASCII byte of a text is a character of its own. -/
theorem encode_eq_append_cons (hb : b < 0x80)
    (h : Utf8.encode text = x ++ b :: y) :
    ∃ before after, text = before ++ Char.ofNat b.toNat :: after ∧ Utf8.encode before = x := by
  induction text generalizing x with
  | nil => exact absurd h (by simp)
  | cons c text ih =>
    rw [Utf8.encode_cons] at h
    obtain ⟨x', rfl, h'⟩ | ⟨z, hz, h'⟩ := List.append_eq_append_iff.mp h
    · obtain ⟨before, after, rfl, rfl⟩ := ih h'
      exact ⟨c :: before, after, rfl, rfl⟩
    · cases z with
      | nil =>
        rw [List.append_nil] at hz
        subst hz
        obtain ⟨before, after, rfl, hbefore⟩ := @ih [] h'.symm
        exact ⟨c :: before, after, rfl, by rw [Utf8.encode_cons, hbefore, List.append_nil]⟩
      | cons d z =>
        obtain ⟨rfl, -⟩ := List.cons.inj h'
        have hmem : b ∈ String.utf8EncodeChar c := by rw [hz]; simp
        have hx := Utf8.eq_nil_of_encodeChar hb hz
        exact ⟨[], text, by rw [Utf8.eq_of_ascii_mem hb hmem]; rfl, hx.symm⟩

namespace WordScan

/-- The word starts where it did before, or behind an ASCII byte. -/
def StartsAt (bytes : List UInt8) (i old start : Nat) : Prop :=
  start = old ∨ ∃ x b y, bytes = x ++ b :: y ∧ b < 0x80 ∧ start = i + x.length + 1

theorem StartsAt.cons {bytes i old start}
    (h : StartsAt bytes (i + 1) old start) (b : UInt8) : StartsAt (b :: bytes) i old start := by
  obtain rfl | ⟨x, c, y, rfl, hc, rfl⟩ := h
  · exact .inl rfl
  · exact .inr ⟨b :: x, c, y, rfl, hc, by rw [List.length_cons]; omega⟩

theorem go_startsAt (bytes : List UInt8) (i : Nat) (scan : WordScan) :
    StartsAt bytes i scan.word_start (go bytes i scan).word_start := by
  induction bytes, i, scan using go.induct with
  | case1 i scan => exact .inl rfl
  | case2 b bytes i scan hsingle ih =>
    rw [go.eq_def]
    dsimp only
    rw [if_pos hsingle]
    exact ih.cons b
  | case3 b bytes i scan hsingle hdouble ih =>
    rw [go.eq_def]
    dsimp only
    rw [if_neg hsingle, if_pos hdouble]
    exact ih.cons b
  | case4 b i scan hsingle hdouble hescape =>
    rw [go, if_neg hsingle, if_neg hdouble, if_pos hescape]
    exact .inl rfl
  | case5 b i scan hsingle hdouble hescape c bytes ih =>
    rw [go, if_neg hsingle, if_neg hdouble, if_pos hescape]
    exact (ih.cons c).cons b
  | case6 b bytes i scan hsingle hdouble hescape hblank ih =>
    rw [go.eq_def]
    dsimp only
    rw [if_neg hsingle, if_neg hdouble, if_neg hescape, if_pos hblank]
    obtain hstart | ⟨x, c, y, rfl, hc, hstart⟩ := ih
    · refine .inr ⟨[], b, bytes, rfl, ?_, hstart⟩
      rcases hblank.1 with rfl | rfl | rfl <;> decide
    · exact .inr ⟨b :: x, c, y, rfl, hc, by rw [hstart, List.length_cons]; omega⟩
  | case7 b bytes i scan hsingle hdouble hescape hblank ih =>
    rw [go.eq_def]
    dsimp only
    rw [if_neg hsingle, if_neg hdouble, if_neg hescape, if_neg hblank]
    exact ih.cons b

end WordScan

/-- **The word** that is completed starts between two characters. -/
theorem findCompWordStart_split (text : List Char) :
    ∃ before word, text = before ++ word ∧ byteLen before = (findCompWordStart text).word_start := by
  obtain h | ⟨x, b, y, hbytes, hb, h⟩ := WordScan.go_startsAt (Utf8.encode text) 0 {}
  · exact ⟨[], text, rfl, h.symm⟩
  · obtain ⟨before, after, rfl, rfl⟩ := encode_eq_append_cons hb hbytes
    refine ⟨before ++ [Char.ofNat b.toNat], after, by simp, ?_⟩
    rw [findCompWordStart, h, byteLen, Utf8.encode_append, Utf8.encode_cons, Utf8.encode_nil,
      Utf8.encodeChar_of_ascii hb, List.length_append, Nat.zero_add]
    rfl

/-- What is replaced in a line, and by what. -/
structure Replaces (line new : LineBuffer) (before word inserted after : List Char) : Prop where
  buf : line.buf = before ++ word ++ after
  start : byteLen before = (findCompWordStart (before ++ word)).word_start
  cursor : byteLen (before ++ word) = line.cursor
  new_buf : new.buf = before ++ inserted ++ after
  new_cursor : new.cursor = byteLen (before ++ inserted)

theorem previewCompletion_replaces (hcursor : base_line.AtBoundary) (hentry : state.selectedEntry = some entry)
    (line : LineBuffer) :
    ∃ before word after, Replaces base_line (previewCompletion line state base_line) before word
      (replacement state.in_quote (state.inner entry)) after := by
  obtain ⟨text, after, hbuf, hlen⟩ := hcursor
  obtain ⟨before, word, rfl, hstart⟩ := findCompWordStart_split text
  have hsplit : splitBytes base_line.buf base_line.cursor = (before ++ word, after) := by
    rw [hbuf, ← hlen, splitBytes_append]
  have hfront : base_line.before = before ++ word := congrArg Prod.fst hsplit
  have hback : base_line.after = after := congrArg Prod.snd hsplit
  have hstarts : (splitBytes base_line.buf (byteLen before)).1 = before := by
    rw [hbuf, List.append_assoc, splitBytes_append]
  have hname : state.selectedName = some (state.comp.entryName entry) := by
    rw [CompletionState.selectedName, hentry, Option.map_some]
  have hpreview : previewCompletion line state base_line =
      line.setWithCursor (before ++ replacement state.in_quote (state.inner entry) ++ after)
        (byteLen (before ++ replacement state.in_quote (state.inner entry))) := by
    rw [previewCompletion, hentry, hname]
    dsimp only
    rw [hfront, ← hstart, hstarts, hback, byteLen_append]
    rfl
  rw [setWithCursor_append] at hpreview
  refine ⟨before, word, after, hbuf, hstart, hlen, ?_, ?_⟩
  · rw [hpreview]
  · rw [hpreview]

end Ish.Editor
