import Ish.Epsh.ReadOn

/-!
# Quoted words as bytes

The three ways to quote a byte string, the shell text of the quoted words, and when the
lexer reads the byte string back from them.
-/

namespace Ish.Epsh

open Ish.Lib List

/-! ## Quoted words -/

/-- What a backslash has to be put before in double quotes. -/
def isDquoteSpecial (b : UInt8) : Bool := b == 0x24 || b == 0x60 || b == 0x22 || b == 0x5C

def dquoteEscapeBytes (s : ShellBytes) : ShellBytes :=
  s.flatMap fun b => if isDquoteSpecial b then [0x5C, b] else [b]

/-- In double quotes. -/
def dquoted (s : ShellBytes) : ShellBytes := 0x22 :: dquoteEscapeBytes s ++ [0x22]

/-- In single quotes. -/
def squoted (s : ShellBytes) : ShellBytes := 0x27 :: s ++ [0x27]

/-- With a backslash before every character. -/
def escaped (s : ShellBytes) : ShellBytes :=
  (shellChars (bytesToStr s)).flatMap fun unit => 0x5C :: strToBytes unit

/-- The source goes on with nothing, or with a byte that ends a word. -/
def FollowsWord (rest : ShellBytes) : Prop :=
  ∀ b ∈ rest.head?, b ∈ [0x20, 0x09, 0x0A, 0x3B, 0x26, 0x28, 0x29, 0x7C, 0x3C, 0x3E]

/-- With fuel enough, the lexer reads `word` as one word, all of it quoted, that stands
for `s`, and goes on behind it. -/
def LexesTo (nested : Nested) (word rest s : ShellBytes) : Prop :=
  ∃ N, ∀ n, N ≤ n → ∃ parts had_quoting span t,
    nextToken nested n (.newBytes (word ++ rest)) =
      some (.ok (.Word parts had_quoting, span), t) ∧
    t.src = bytesToStr rest ∧ quotedBytes parts = some s

/-! ## Their text -/

theorem endsWord_byte
    (h : b ∈ ([0x20, 0x09, 0x0A, 0x3B, 0x26, 0x28, 0x29, 0x7C, 0x3C, 0x3E] : List UInt8)) :
    b < 0x80 ∧ isWordEnd (Char.ofNat b.toNat) = true ∧
      (Char.ofNat b.toNat = '\n' → b = 0x0A) := by
  simp only [mem_cons, not_mem_nil, or_false] at h
  rcases h with rfl | rfl | rfl | rfl | rfl | rfl | rfl | rfl | rfl | rfl <;> decide

theorem FollowsWord.startsAscii (h : FollowsWord rest) : StartsAscii rest := by
  intro a ha
  exact (endsWord_byte (h a ha)).1

theorem FollowsWord.wordEnds (h : FollowsWord rest) :
    WordEnds (bytesToStr rest) := by
  cases rest with
  | nil => exact nofun
  | cons b rest =>
    rw [bytesToStr_ascii_cons (h.startsAscii b rfl)]
    intro c hc
    obtain rfl := Option.some.inj hc
    exact (endsWord_byte (h b rfl)).2.1

theorem mem_of_mem_bytesToStr (ha : a < 0x80) {s : ShellBytes}
    (h : Char.ofNat a.toNat ∈ bytesToStr s) : a ∈ s := by
  induction s using shell_induction with
  | nil => cases h
  | char c rest ih =>
    rw [bytesToStr_char, mem_append] at h
    rcases h with h | h
    · refine mem_append_left _ ?_
      have hc : Char.ofNat a.toNat = c := by
        rw [pushText, flatMap_singleton] at h
        split at h
        · rcases mem_pair.mp h with h | h
          · have hcode := Utf8.encodeChar_of_ascii ha
            rw [h] at hcode
            cases hcode
          · exact h
        · exact mem_singleton.mp h
      rw [← hc, Utf8.encodeChar_of_ascii ha]
      exact mem_singleton_self a
    · exact mem_append_right _ (ih h)
  | raw b rest hstuck ih =>
    rw [bytesToStr_stuck hstuck, mem_cons] at h
    rcases h with h | h
    · have hhigh := Utf8.le_of_decodeChar?_eq_none hstuck
      have hcode := Utf8.encodeChar_of_ascii ha
      have hmark := isRawMark_rawMark hhigh
      rw [← rawMark, ← h] at hmark
      have hlow : ∀ n : Fin 128, isRawMark (Char.ofNat n) = false := by decide
      have hlt : a.toNat < 128 := by simpa [UInt8.lt_iff_toNat_lt] using ha
      have hfalse := hlow ⟨a.toNat, hlt⟩
      rw [hmark] at hfalse
      cases hfalse
    · exact mem_cons_of_mem _ (ih h)

theorem FollowsWord.newline (h : FollowsWord rest)
    (hhead : (bytesToStr rest).head? = some '\n') : rest.head? = some 0x0A := by
  cases rest with
  | nil => cases hhead
  | cons b rest =>
    rw [bytesToStr_ascii_cons (h.startsAscii b rfl)] at hhead
    exact congrArg some ((endsWord_byte (h b rfl)).2.2 (Option.some.inj hhead))

theorem dquoteEscapeBytes_plain (h : ∀ b ∈ s, isDquoteSpecial b = false) :
    dquoteEscapeBytes s = s := by
  induction s with
  | nil => rfl
  | cons b s ih =>
    rw [dquoteEscapeBytes, flatMap_cons, ← dquoteEscapeBytes,
      ih fun b hb => h b (mem_cons_of_mem _ hb), h b mem_cons_self]
    rfl

theorem dquoteEscape_plain (h : ∀ c ∈ text, isDquotePlain c = true) :
    dquoteEscape text = text := by
  induction text with
  | nil => rfl
  | cons c text ih =>
    rw [dquoteEscape_cons, ih fun c hc => h c (mem_cons_of_mem _ hc), h c mem_cons_self]
    rfl

theorem isDquoteSpecial_cases (h : isDquoteSpecial a = true) :
    a < 0x80 ∧ isDquotePlain (Char.ofNat a.toNat) = false := by
  have hall : ∀ a : UInt8, a = 0x24 ∨ a = 0x60 ∨ a = 0x22 ∨ a = 0x5C →
      a < 0x80 ∧ isDquotePlain (Char.ofNat a.toNat) = false := by
    rintro a (rfl | rfl | rfl | rfl) <;> decide
  refine hall a ?_
  simpa [isDquoteSpecial, or_assoc] using h

theorem isDquotePlain_of_bytes {s : ShellBytes} (h : ∀ b ∈ s, isDquoteSpecial b = false)
    (c : Char) (hc : c ∈ bytesToStr s) : isDquotePlain c = true := by
  have hnot (a : UInt8) (ha : a < 0x80) (hspecial : isDquoteSpecial a = true) :
      c ≠ Char.ofNat a.toNat := by
    rintro rfl
    rw [h a (mem_of_mem_bytesToStr ha hc)] at hspecial
    cases hspecial
  have h1 := hnot 0x22 (by decide) rfl
  have h2 := hnot 0x5C (by decide) rfl
  have h3 := hnot 0x24 (by decide) rfl
  have h4 := hnot 0x60 (by decide) rfl
  simp only [isDquotePlain, Bool.not_eq_true', Bool.or_eq_false_iff, beq_eq_false_iff_ne]
  exact ⟨⟨⟨h1, h2⟩, h3⟩, h4⟩

/-- Escaping for double quotes commutes with the encoding. -/
theorem bytesToStr_dquoteEscape (s : ShellBytes) :
    bytesToStr (dquoteEscapeBytes s) = dquoteEscape (bytesToStr s) := by
  induction hn : s.length using Nat.strongRecOn generalizing s with
  | ind n ih =>
    -- up to the first special byte nothing is escaped
    have hsplit := takeWhile_append_dropWhile (p := fun b => !isDquoteSpecial b) (l := s)
    have hplain : ∀ b ∈ s.takeWhile (fun b => !isDquoteSpecial b), isDquoteSpecial b = false :=
      fun b hb => by simpa using mem_takeWhile_imp hb
    generalize s.takeWhile (fun b => !isDquoteSpecial b) = x at hsplit hplain
    cases hdrop : s.dropWhile (fun b => !isDquoteSpecial b) with
    | nil =>
      rw [hdrop, append_nil] at hsplit
      subst hsplit
      rw [dquoteEscapeBytes_plain hplain,
        dquoteEscape_plain (isDquotePlain_of_bytes hplain)]
    | cons a y =>
      have hspecial : isDquoteSpecial a = true := by
        have hhead := head?_dropWhile_not (fun b => !isDquoteSpecial b) s
        rw [hdrop] at hhead
        simpa using hhead
      obtain ⟨ha, hchar⟩ := isDquoteSpecial_cases hspecial
      rw [hdrop] at hsplit
      subst hsplit
      have hy := ih y.length (by simp [← hn]; omega) y rfl
      have hbytes : dquoteEscapeBytes (x ++ a :: y) =
          x ++ 0x5C :: a :: dquoteEscapeBytes y := by
        have hx := dquoteEscapeBytes_plain hplain
        rw [dquoteEscapeBytes] at hx ⊢
        rw [flatMap_append, hx, flatMap_cons, if_pos hspecial]
        rfl
      have htext : dquoteEscape (bytesToStr x ++ Char.ofNat a.toNat :: bytesToStr y) =
          bytesToStr x ++ '\\' :: Char.ofNat a.toNat :: dquoteEscape (bytesToStr y) := by
        have hx := dquoteEscape_plain (isDquotePlain_of_bytes hplain)
        rw [dquoteEscape] at hx ⊢
        rw [flatMap_append, hx, flatMap_cons, if_neg (by simp [hchar])]
        rfl
      rw [hbytes, bytesToStr_append_ascii x (by decide), bytesToStr_ascii_cons (by decide),
        bytesToStr_ascii_cons ha, hy, bytesToStr_append_ascii x ha, bytesToStr_ascii_cons ha,
        htext]
      rfl

theorem text_dquoted (s rest : ShellBytes) :
    bytesToStr (dquoted s ++ rest) =
      '"' :: dquoteEscape (bytesToStr s) ++ '"' :: bytesToStr rest := by
  have hquote : bytesToStr (0x22 :: rest) = '"' :: bytesToStr rest :=
    bytesToStr_ascii_cons (by decide) rest
  have hassoc : dquoted s ++ rest = 0x22 :: (dquoteEscapeBytes s ++ 0x22 :: rest) := by
    simp [dquoted]
  rw [hassoc, bytesToStr_ascii_cons (by decide), bytesToStr_append_ascii _ (by decide), hquote,
    bytesToStr_dquoteEscape]
  rfl

theorem text_squoted (s rest : ShellBytes) :
    bytesToStr (squoted s ++ rest) = '\'' :: bytesToStr s ++ '\'' :: bytesToStr rest := by
  have hquote : bytesToStr (0x27 :: rest) = '\'' :: bytesToStr rest :=
    bytesToStr_ascii_cons (by decide) rest
  have hassoc : squoted s ++ rest = 0x27 :: (s ++ 0x27 :: rest) := by simp [squoted]
  rw [hassoc, bytesToStr_ascii_cons (by decide), bytesToStr_append_ascii _ (by decide), hquote]
  rfl

theorem text_escaped {s rest : ShellBytes} {us : List ShellUnit}
    (htext : bytesToStr s = us.flatMap ShellUnit.text) (hrest : StartsAscii rest) :
    bytesToStr (escaped s ++ rest) =
      (us.map ShellUnit.text).flatMap (fun unit => '\\' :: unit) ++ bytesToStr rest := by
  rw [escaped, htext, shellChars_units]
  clear htext
  induction us with
  | nil => rfl
  | cons u us ih =>
    have hstart : StartsAscii
        ((us.map ShellUnit.text).flatMap (fun unit => 0x5C :: strToBytes unit) ++ rest) := by
      cases us with
      | nil => exact hrest
      | cons _ _ =>
        intro b hb
        obtain rfl := Option.some.inj hb
        decide
    rw [List.map_cons, List.flatMap_cons, List.append_assoc, List.cons_append, strToBytes_text,
      bytesToStr_ascii_cons (by decide), bytesToStr_unit u hstart, ih, List.flatMap_cons]
    simp only [List.cons_append, List.append_assoc]
    rfl

theorem isUnit_text {u : ShellUnit} (h : 0x0A ∉ u.bytes) : IsUnit u.text := by
  cases u with
  | char c =>
    simp only [ShellUnit.text, pushText, List.flatMap_cons, List.flatMap_nil, List.append_nil]
    split
    · rename_i hmarked
      refine .encoded ?_
      rintro rfl
      revert hmarked
      decide
    · rename_i hplain
      simp only [Bool.true_and, Bool.or_eq_true, not_or, Bool.not_eq_true, beq_eq_false_iff_ne] at hplain
      refine .plain hplain.1.1 ?_
      rintro rfl
      exact h (by decide)
  | byte b high =>
    refine .plain (by simpa using rawMark_ne_escape high) ?_
    intro hc
    have hmark := isRawMark_rawMark high
    rw [hc] at hmark
    cases hmark

theorem strToBytes_escape (c : Char) (text : Text) :
    strToBytes (ESCAPE :: c :: text) = String.utf8EncodeChar c ++ strToBytes text := by
  rw [strToBytes, if_pos (beq_self_eq_true ESCAPE)]

theorem infix_strToBytes {text : Text} (h : ['\\', '\n'] <:+: text) :
    [0x5C, 0x0A] <:+: strToBytes text := by
  obtain ⟨before, after, rfl⟩ := h
  rw [List.append_assoc]
  induction hn : before.length using Nat.strongRecOn generalizing before with
  | ind n ih =>
    have hbreak : strToBytes (['\\', '\n'] ++ after) = [0x5C, 0x0A] ++ strToBytes after := by
      rw [List.cons_append, strToBytes_cons (by decide), List.cons_append,
        strToBytes_cons (by decide)]
      rfl
    cases before with
    | nil => exact ⟨[], strToBytes after, by rw [List.nil_append, List.nil_append, hbreak]⟩
    | cons c before =>
      have hlong := ih before.length (by simp [← hn]) before rfl
      cases hc : c == ESCAPE with
      | false =>
        rw [List.cons_append, strToBytes_cons hc]
        exact List.infix_append_of_infix_right hlong
      | true =>
        cases before with
        | nil =>
          have hlast : strToBytes ('\n' :: after) = [0x0A] ++ strToBytes after :=
            strToBytes_cons (by decide) after
          refine ⟨[], strToBytes after, ?_⟩
          rw [beq_iff_eq.mp hc, List.singleton_append, List.cons_append,
            strToBytes_escape, List.singleton_append, hlast]
          rfl
        | cons d before =>
          have hlt : before.length < n := by
            rw [← hn, List.length_cons, List.length_cons]
            omega
          have hshort := ih before.length hlt before rfl
          rw [beq_iff_eq.mp hc, List.cons_append, List.cons_append, strToBytes_escape]
          exact List.infix_append_of_infix_right hshort

/-! ## When the bytes are read back -/

section

variable (nested : Nested) {s rest : ShellBytes}

theorem quotedBytes_plainParts (s : ShellBytes) :
    quotedBytes [.DoubleQuoted (plainParts (bytesToStr s))] = some s := by
  have hplain : literalBytes (plainParts (bytesToStr s)) = some s := by
    unfold plainParts
    split
    · rename_i hempty
      have hnil := strToBytes_bytesToStr s
      rw [List.isEmpty_iff.mp hempty] at hnil
      rw [← hnil]
      rfl
    · rw [strToBytes_bytesToStr, literalBytes, literalBytes, Option.map_some, List.append_nil]
  rw [quotedBytes, hplain, quotedBytes, Option.bind_some, Option.map_some, List.append_nil]

theorem quotedBytes_escapedParts (units : List Text) :
    quotedBytes (escapedParts units) = some (units.flatMap strToBytes) := by
  induction units with
  | nil => rfl
  | cons unit units ih =>
    rw [escapedParts, List.map_cons, quotedBytes, ← escapedParts, ih]
    simp [literalBytes]

theorem lexesTo_of_reads {word : ShellBytes} {c : Char} {src : List Char} {parts}
    {part had_quoting N}
    (htext : bytesToStr (word ++ rest) = c :: src)
    (hc : c = '"' ∨ c = '\'' ∨ c = '\\') (hcontinuation : atContinuation (c :: src) = false)
    (hpart : ∀ s, part ≠ .Literal s) (hbytes : quotedBytes (part :: parts) = some s)
    (hword : ∀ n span, N ≤ n → Reads
      (readWordLoop nested span .Word false n { had_quoting := false })
      (c :: src) (part :: parts, had_quoting) (bytesToStr rest)) :
    LexesTo nested word rest s := by
  refine ⟨N + 1, fun n hn => ?_⟩
  obtain ⟨n, rfl⟩ := Nat.exists_eq_add_one.mpr (Nat.zero_lt_of_lt hn)
  obtain ⟨span, t, hscan, ht⟩ := scanToken_quoted nested (s := .newBytes (word ++ rest)) htext hc
    hcontinuation hpart (fun span => hword (n + 1) span (Nat.le_of_succ_le hn))
  exact ⟨part :: parts, had_quoting, span, t, hscan, ht, hbytes⟩

theorem lexesTo_dquoted (hrest : FollowsWord rest) (hbreak : ¬ [0x5C, 0x0A] <:+: s) :
    LexesTo nested (dquoted s) rest s := by
  have hbreak' : ¬ ['\\', '\n'] <:+: bytesToStr s := fun h =>
    hbreak (strToBytes_bytesToStr s ▸ infix_strToBytes h)
  have hcontinuation : atContinuation
      ('"' :: dquoteEscape (bytesToStr s) ++ '"' :: bytesToStr rest) = false :=
    atContinuation_cons nofun
  have hword (n : Nat) (span : Span) (hn : (bytesToStr s).length + 4 ≤ n) :
      Reads (readWordLoop nested span .Word false n { had_quoting := false })
        ('"' :: dquoteEscape (bytesToStr s) ++ '"' :: bytesToStr rest)
        ([.DoubleQuoted (plainParts (bytesToStr s))], true) (bytesToStr rest) := by
    obtain ⟨n, rfl⟩ := Nat.exists_eq_add_of_le' (by omega : 3 ≤ n)
    exact reads_dquoted nested span hbreak' hrest.wordEnds n (by omega)
  have hpart (literal : ShellBytes) :
      WordPart.DoubleQuoted (plainParts (bytesToStr s)) ≠ .Literal literal := nofun
  exact lexesTo_of_reads nested (text_dquoted s rest) (.inl rfl) hcontinuation hpart
    (quotedBytes_plainParts s) hword

theorem lexesTo_squoted (hrest : FollowsWord rest) (hquote : 0x27 ∉ s) :
    LexesTo nested (squoted s) rest s := by
  have hquote' : '\'' ∉ bytesToStr s := fun h => hquote (mem_of_mem_bytesToStr (by decide) h)
  have hcontinuation : atContinuation ('\'' :: bytesToStr s ++ '\'' :: bytesToStr rest) = false :=
    atContinuation_cons nofun
  have hbytes : quotedBytes [.SingleQuoted (strToBytes (bytesToStr s))] = some s := by
    rw [strToBytes_bytesToStr, quotedBytes, quotedBytes, Option.map_some, append_nil]
  have hword (n : Nat) (span : Span) (hn : (bytesToStr s).length + 3 ≤ n) :
      Reads (readWordLoop nested span .Word false n { had_quoting := false })
        ('\'' :: bytesToStr s ++ '\'' :: bytesToStr rest)
        ([.SingleQuoted (strToBytes (bytesToStr s))], true) (bytesToStr rest) := by
    obtain ⟨n, rfl⟩ := Nat.exists_eq_add_of_le' (by omega : 2 ≤ n)
    exact reads_squoted nested span hquote' hrest.wordEnds n (by omega)
  have hpart (literal : ShellBytes) :
      WordPart.SingleQuoted (strToBytes (bytesToStr s)) ≠ .Literal literal := nofun
  exact lexesTo_of_reads nested (text_squoted s rest) (.inr (.inl rfl)) hcontinuation hpart
    hbytes hword

/-- The units of a byte string without newlines can all be escaped. -/
theorem isUnit_of_units {us : List ShellUnit} (hs : us.flatMap ShellUnit.bytes = s)
    (hnewline : 0x0A ∉ s) : ∀ unit ∈ us.map ShellUnit.text, IsUnit unit := by
  intro unit hunit
  obtain ⟨u, hu, rfl⟩ := mem_map.mp hunit
  refine isUnit_text fun h => hnewline ?_
  rw [← hs]
  exact mem_flatMap.mpr ⟨u, hu, h⟩

theorem text_eq_backslash {u : ShellUnit} : u.text = ['\\'] ↔ u.bytes.getLast? = some 0x5C := by
  constructor
  · intro h
    rw [← strToBytes_text, h]
    rfl
  · intro h
    have hmem := mem_of_getLast? h
    cases u with
    | char c =>
      rw [Utf8.eq_of_ascii_mem (by decide) hmem]
      decide
    | byte b high =>
      obtain rfl := mem_singleton.mp hmem
      exact absurd high (by decide)

theorem getLast?_units {us : List ShellUnit} (hs : us.flatMap ShellUnit.bytes = s) :
    (us.map ShellUnit.text).getLast? = some ['\\'] ↔ s.getLast? = some 0x5C := by
  subst hs
  cases hlast : us.getLast? with
  | none =>
    rw [getLast?_eq_none_iff.mp hlast]
    exact ⟨nofun, nofun⟩
  | some u =>
    obtain ⟨before, rfl⟩ := getLast?_eq_some_iff.mp hlast
    have hbytes : u.bytes ≠ [] := by
      cases u with
      | char c =>
        intro h
        have hlen := congrArg List.length h
        rw [ShellUnit.bytes, String.length_utf8EncodeChar] at hlen
        exact absurd hlen (Nat.pos_iff_ne_zero.mp c.utf8Size_pos)
      | byte b high => exact cons_ne_nil _ _
    rw [map_append, map_singleton, getLast?_concat, Option.some_inj,
      text_eq_backslash, flatMap_append, flatMap_singleton,
      getLast?_append_of_ne_nil _ hbytes]

theorem lexesTo_escaped (hrest : FollowsWord rest) (hs : s ≠ []) (hnewline : 0x0A ∉ s)
    (hlast : ¬ (s.getLast? = some 0x5C ∧ rest.head? = some 0x0A)) :
    LexesTo nested (escaped s) rest s := by
  obtain ⟨us, hbytes, htext⟩ := bytesToStr_units s
  have hunits := isUnit_of_units hbytes hnewline
  have hsrc := text_escaped htext hrest.startsAscii
  have hbackslash (h : (us.map ShellUnit.text).getLast? = some ['\\']) :
      (bytesToStr rest).head? ≠ some '\n' := fun hhead =>
    hlast ⟨(getLast?_units hbytes).mp h, hrest.newline hhead⟩
  have hquoted : quotedBytes (escapedParts (us.map ShellUnit.text)) = some s := by
    rw [quotedBytes_escapedParts, flatMap_map, ← hbytes]
    exact congrArg some (congrArg (us.flatMap ·) (funext strToBytes_text))
  have hword (n : Nat) (span : Span) (hn : us.length + 1 ≤ n) :=
    reads_units nested span { had_quoting := false } hunits hrest.wordEnds hbackslash n
      (by rw [length_map]; exact hn) rfl
  cases us with
  | nil => exact absurd hbytes.symm hs
  | cons u us =>
    rw [map_cons, flatMap_cons, cons_append, cons_append, append_assoc]
      at hsrc
    have hreads (n : Nat) (span : Span) (hn : (u :: us).length + 1 ≤ n) :
        Reads (readWordLoop nested span .Word false n { had_quoting := false })
          ('\\' :: (u.text ++ ((us.map ShellUnit.text).flatMap (fun unit => '\\' :: unit) ++
            bytesToStr rest)))
          (.DoubleQuoted [.Literal (strToBytes u.text)] :: escapedParts (us.map ShellUnit.text),
            true) (bytesToStr rest) := by
      have h := hword n span hn
      rw [nil_append, coalesceLiterals_escaped, map_cons, flatMap_cons,
        cons_append, cons_append, append_assoc] at h
      exact h
    have hpart (literal : ShellBytes) :
        WordPart.DoubleQuoted [.Literal (strToBytes u.text)] ≠ .Literal literal := nofun
    exact lexesTo_of_reads nested hsrc (.inr (.inr rfl))
      ((hunits _ mem_cons_self).not_continuation _) hpart hquoted hreads

/-! ## When they are not -/

def isWordToken : Token → Bool
  | .Word .. => true
  | _ => false

theorem tokenOfWord_parts
    (h : tokenOfWord recognize_reserved parts had_quoting = .Word parts' had_quoting') :
    parts' = parts ∧ had_quoting' = had_quoting := by
  have hall : ∀ p ∈ reservedWords, isWordToken p.2 = false := by decide
  unfold tokenOfWord at h
  dsimp only at h
  split at h
  · rename_i token htoken
    split at htoken
    · obtain ⟨text, -, hlookup⟩ := Option.bind_eq_some_iff.mp htoken
      obtain ⟨l₁, l₂, hl, -⟩ := lookup_eq_some_iff.mp hlookup
      have hnot := hall (text, token) (hl ▸ mem_append_right _ mem_cons_self)
      rw [h] at hnot
      cases hnot
    · cases htoken
  · split at h
    · cases h
    · cases h
      exact ⟨rfl, rfl⟩

theorem lines_of_quotedBytes (h : quotedBytes parts = some s) :
    lines parts = s.count 0x0A := by
  have hliteral (inner : List WordPart) (b : ShellBytes) (h : literalBytes inner = some b) :
      (inner.map literalLines).sum = b.count 0x0A := by
    induction inner generalizing b with
    | nil =>
      cases h
      rfl
    | cons part inner ih =>
      cases part with
      | Literal l =>
        obtain ⟨b, hb, rfl⟩ := Option.map_eq_some_iff.mp h
        rw [map_cons, sum_cons, ih b hb, count_append, literalLines]
      | _ => cases h
  induction parts generalizing s with
  | nil =>
    cases h
    rfl
  | cons part parts ih =>
    cases part with
    | SingleQuoted l =>
      obtain ⟨b, hb, rfl⟩ := Option.map_eq_some_iff.mp h
      rw [lines_cons, ih hb, count_append, partLines]
    | DoubleQuoted inner =>
      obtain ⟨l, hl, h⟩ := Option.bind_eq_some_iff.mp h
      obtain ⟨b, hb, rfl⟩ := Option.map_eq_some_iff.mp h
      rw [lines_cons, ih hb, count_append, partLines, hliteral inner l hl]
    | _ => cases h

/-- **A word that loses a newline is not read back.** -/
theorem not_lexesTo {word : ShellBytes}
    (htext : bytesToStr (word ++ rest) = c :: src)
    (hc : c = '"' ∨ c = '\'' ∨ c = '\\') (hcontinuation : atContinuation (c :: src) = false)
    (hcount : word.count 0x0A = s.count 0x0A)
    (hword : ∀ n span, Spends (c :: src) 0 (fun result => 1 + lines result.1)
      (readWordLoop nested span .Word false n { had_quoting := false })) :
    ¬ LexesTo nested word rest s := by
  rintro ⟨N, hlexes⟩
  obtain ⟨parts, had_quoting, span, t, hrun, ht, hbytes⟩ := hlexes (N + 1) (Nat.le_succ N)
  obtain ⟨span', u, hu, hscan⟩ := scanToken_word nested (n := N) (s := .newBytes (word ++ rest))
    htext hc hcontinuation
  have hread : readWord nested (N + 1) span' u = some (.ok (.Word parts had_quoting, span), t) :=
    hscan.symm.trans hrun
  obtain ⟨⟨parts', had_quoting'⟩, v, hloop, hrest⟩ := Process.bind_eq_ok hread
  dsimp only at hrest
  split at hrest
  · cases hrest
  · have hend : some (Ending.ok (tokenOfWord v.recognize_reserved parts' had_quoting', span'), v) =
        some (.ok (.Word parts had_quoting, span), t) := hrest
    obtain ⟨htoken, rfl⟩ := Prod.mk.inj (Option.some.inj hend)
    obtain ⟨rfl, -⟩ := tokenOfWord_parts (Prod.mk.inj (Ending.ok.inj htoken)).1
    have hspent := hword (N + 1) span' u _ v hu hloop
    dsimp only at hspent
    rw [lines_of_quotedBytes hbytes, ht, count_bytesToStr, ← htext, count_bytesToStr,
      List.count_append, hcount] at hspent
    omega

/-- Escaping for double quotes adds no newline. -/
theorem count_dquoted (s : ShellBytes) : (dquoted s).count 0x0A = s.count 0x0A := by
  have hescape : (dquoteEscapeBytes s).count 0x0A = s.count 0x0A := by
    induction s with
    | nil => rfl
    | cons b s ih =>
      rw [dquoteEscapeBytes, List.flatMap_cons, ← dquoteEscapeBytes, List.count_append, ih]
      split <;> simp [List.count_cons, Nat.add_comm]
  simp [dquoted, hescape]

theorem count_escaped (s : ShellBytes) : (escaped s).count 0x0A = s.count 0x0A := by
  obtain ⟨us, hbytes, htext⟩ := bytesToStr_units s
  rw [escaped, htext, shellChars_units, ← hbytes]
  clear hbytes htext
  induction us with
  | nil => rfl
  | cons u us ih =>
    rw [List.map_cons, List.flatMap_cons, List.flatMap_cons, List.count_append,
      List.count_append, ih, strToBytes_text, List.count_cons_of_ne (by decide)]

section

variable {nested} {span : Span} {acc : WordAcc} {src mid : List Char} {c : Char}

theorem spends_round
    (hcontinuation : atContinuation (c :: src) = false)
    (hends : endsWord .Word in_dquote acc c = false)
    (h : Spends (c :: src) w price (readWordPart nested span .Word in_dquote n acc c >>= fun acc =>
      readWordLoop nested span .Word in_dquote n acc)) :
    Spends (c :: src) w price (readWordLoop nested span .Word in_dquote (n + 1) acc) := by
  unfold readWordLoop
  refine .then_reads (reads_peek hcontinuation) ?_ (Nat.le_refl _)
  dsimp only [List.head?_cons]
  exact .ite (fun h => by rw [hends] at h; cases h) fun _ => .ite (fun h => by cases h.1) fun _ => h

theorem spends_noFuel :
    Spends src w price (readWordPart nested span .Word in_dquote 0 acc c >>= fun acc =>
      readWordLoop nested span .Word in_dquote 0 acc) := by
  intro s result t hs h
  cases h

/-- **A backslash and a newline do not survive double quotes.** -/
theorem spends_brokenDquoteText {text : Text} {rest}
    (hbreak : ['\\', '\n'] <:+: text) (n : Nat) (hacc : acc.had_quoting = true) :
    Spends (dquoteEscape text ++ '"' :: rest) acc.lines (fun result => 1 + lines result.1)
      (readWordLoop nested span .Word true n acc) := by
  induction text generalizing acc n with
  | nil => simp at hbreak
  | cons c text ih =>
    cases n with
    | zero => exact .diverge
    | succ n =>
      by_cases hprefix : ['\\', '\n'] <+: c :: text
      · -- the backslash of the escape, then the continuation
        obtain ⟨text, htext⟩ := hprefix
        obtain ⟨rfl, rfl⟩ := List.cons.inj htext.symm
        change Spends ('\\' :: '\\' :: '\n' :: (dquoteEscape text ++ '"' :: rest)) _ _ _
        have hcontinuation : atContinuation
            ('\\' :: '\\' :: '\n' :: (dquoteEscape text ++ '"' :: rest)) = false :=
          atContinuation_cons fun _ h => absurd (Option.some.inj h) (by decide)
        refine spends_round hcontinuation rfl ?_
        cases n with
        | zero => exact spends_noFuel
        | succ n =>
          have hpart : readWordPart nested span .Word true (n + 1) acc '\\' =
              (skipChar >>= fun _ => readDquoteEscape .Word acc.quoting) := rfl
          have hescape : Spends
              ('\\' :: '\\' :: '\n' :: (dquoteEscape text ++ '"' :: rest)) acc.lines
              (fun acc => 1 + acc.lines)
              (skipChar >>= fun _ => readDquoteEscape .Word acc.quoting) := by
            refine .then_reads (reads_skip hcontinuation)
              (spends_readDquoteEscape (spends_advance_continuation _ _)) ?_
            exact Nat.add_le_add_left (List.count_le_count_cons) _
          rw [hpart]
          exact .bind hescape fun acc src =>
            ((spendsLines nested span (n + 1)).loop true acc src).add 1
      · have hbreak' : ['\\', '\n'] <:+: text :=
          (List.infix_cons_iff.mp hbreak).resolve_left hprefix
        have hnext (hc : c = '\\') :
            (dquoteEscape text ++ '"' :: rest).head? ≠ some '\n' := by
          refine dquoteEscape_head fun hhead => hprefix ?_
          obtain ⟨tail, rfl⟩ := head?_eq_some_iff.mp hhead
          rw [hc]
          exact ⟨tail, rfl⟩
        have hpush (n : Nat) : Spends (dquoteEscape text ++ '"' :: rest) (acc.push c).lines
            (fun result => 1 + lines result.1)
            (readWordLoop nested span .Word true n (acc.push c)) := ih hbreak' n hacc
        rw [dquoteEscape_cons]
        cases hplain : isDquotePlain c with
        | true =>
          have hquote : c ≠ '"' := fun h => by rw [h] at hplain; cases hplain
          have hescape : c ≠ '\\' := fun h => by rw [h] at hplain; cases hplain
          refine spends_round (atContinuation_cons fun h => absurd h hescape)
            (by simpa [endsWord] using hquote) ?_
          cases n with
          | zero => exact spends_noFuel
          | succ n =>
            refine .then_reads (reads_plain nested span n hplain) (hpush (n + 1)) ?_
            simp only [WordAcc.lines_push, count_cons, count_nil]
            omega
        | false =>
          have hnewline : c ≠ '\n' := fun h => by rw [h] at hplain; cases hplain
          change Spends ('\\' :: c :: (dquoteEscape text ++ '"' :: rest)) _ _ _
          refine spends_round (atContinuation_cons fun _ h => hnewline (Option.some.inj h))
            rfl ?_
          cases n with
          | zero => exact spends_noFuel
          | succ n =>
            refine .then_reads (reads_escaped nested span n hacc hplain hnext)
              (hpush (n + 1)) ?_
            simp only [WordAcc.lines_push, List.count_cons, List.count_nil]
            omega

/-- **A final backslash is lost in front of a newline.** -/
theorem spends_brokenUnits {units : List Text} {rest}
    (hunits : ∀ unit ∈ units, IsUnit unit) (hlast : units.getLast? = some ['\\']) (n : Nat)
    (hliteral : acc.literal = []) :
    Spends (units.flatMap (fun unit => '\\' :: unit) ++ '\n' :: rest) acc.lines
      (fun result => 1 + lines result.1) (readWordLoop nested span .Word false n acc) := by
  induction units generalizing acc n with
  | nil => cases hlast
  | cons unit units ih =>
    have hunit := hunits unit List.mem_cons_self
    have hsrc : (unit :: units).flatMap (fun unit => '\\' :: unit) ++ '\n' :: rest =
        '\\' :: (unit ++ (units.flatMap (fun unit => '\\' :: unit) ++ '\n' :: rest)) := by
      rw [List.flatMap_cons, List.cons_append, List.cons_append, List.append_assoc]
    rw [hsrc]
    cases n with
    | zero => exact .diverge
    | succ n =>
      refine spends_round (hunit.not_continuation _) (by simp [endsWord, isWordEnd]) ?_
      cases n with
      | zero => exact spends_noFuel
      | succ n =>
        cases units with
        | nil =>
          -- the last character is a backslash, and the newline continues it
          obtain rfl := Option.some.inj hlast
          have hpart : readWordPart nested span .Word false (n + 1) acc '\\' =
              (skipChar >>= fun _ => readEscape .Word acc.quoting) := rfl
          have hescape : Spends ('\\' :: '\\' :: '\n' :: rest) acc.lines
              (fun acc => 1 + acc.lines)
              (skipChar >>= fun _ => readEscape .Word acc.quoting) := by
            refine .then_reads (reads_skip (hunit.not_continuation _))
              (spends_readEscape (spends_advance_continuation _ _)) ?_
            exact Nat.add_le_add_left (List.count_le_count_cons) _
          rw [hpart]
          exact .bind hescape fun acc src =>
            ((spendsLines nested span (n + 1)).loop false acc src).add 1
        | cons next units =>
          have hreads := @reads_unit nested span
            ((next :: units).flatMap (fun unit => '\\' :: unit) ++ '\n' :: rest) acc unit
            hunit hliteral (fun _ => by rintro ⟨⟩) n
          have hrest := @ih (acc.quoting.add (.DoubleQuoted [.Literal (strToBytes unit)]))
            (fun u hu => hunits u (List.mem_cons_of_mem _ hu)) hlast (n + 1) hliteral
          refine .then_reads hreads hrest ?_
          rw [WordAcc.lines_add, WordAcc.lines_quoting]
          simp only [partLines, List.map_singleton, List.sum_singleton, literalLines,
            count_strToBytes, List.count_cons, List.count_append]
          omega

end

/-- Nor do the parts in double quotes. -/
theorem spends_brokenDquoteParts {span} {text : Text} {rest : List Char}
    (hbreak : ['\\', '\n'] <:+: text) (n : Nat) :
    Spends (dquoteEscape text ++ '"' :: rest) 0 (fun parts => 1 + (parts.map literalLines).sum)
      (readDquoteParts nested span n) := by
  cases n with
  | zero => exact .diverge
  | succ n =>
    unfold readDquoteParts
    refine .bind (spends_brokenDquoteText hbreak n rfl) fun result src => ?_
    refine .then_peek (fun src _ => ?_) src
    split
    · exact .then_readsOn reader_skipChar.readsOn fun _ src =>
        .pure (Nat.add_le_add_left (sum_literalLines_le result.1) 1)
    · exact .fail _

theorem not_lexesTo_dquoted (hbreak : [0x5C, 0x0A] <:+: s) :
    ¬ LexesTo nested (dquoted s) rest s := by
  have hbreak' : ['\\', '\n'] <:+: bytesToStr s := by
    obtain ⟨before, after, rfl⟩ := hbreak
    have htext : bytesToStr (before ++ 0x5C :: 0x0A :: after) =
        bytesToStr before ++ '\\' :: '\n' :: bytesToStr after := by
      rw [bytesToStr_append_ascii before (by decide), bytesToStr_ascii_cons (by decide),
        bytesToStr_ascii_cons (by decide)]
      rfl
    refine ⟨bytesToStr before, bytesToStr after, ?_⟩
    rw [append_assoc, append_assoc]
    exact htext.symm
  have hcontinuation : atContinuation
      ('"' :: dquoteEscape (bytesToStr s) ++ '"' :: bytesToStr rest) = false :=
    atContinuation_cons nofun
  refine not_lexesTo nested (text_dquoted s rest) (.inl rfl) hcontinuation (count_dquoted s)
    fun n span => ?_
  cases n with
  | zero => exact .diverge
  | succ n =>
    refine spends_round hcontinuation rfl ?_
    cases n with
    | zero => exact spends_noFuel
    | succ n =>
      have hpart : readWordPart nested span .Word false (n + 1) { had_quoting := false } '"' =
          (skipChar >>= fun _ => readDquoteParts nested span n >>= fun inner =>
            pure (({ had_quoting := false } : WordAcc).flush.quoting.add
              (.DoubleQuoted inner))) := rfl
      rw [hpart]
      have hcount (text : List Char) : text.count '\n' ≤ ('"' :: text).count '\n' :=
        count_le_count_cons
      have hinner : Spends ('"' :: dquoteEscape (bytesToStr s) ++ '"' :: bytesToStr rest) 0
          (fun inner => 1 + (inner.map literalLines).sum)
          (skipChar >>= fun _ => readDquoteParts nested span n) :=
        .then_reads (reads_skip hcontinuation) (spends_brokenDquoteParts nested hbreak' n)
          (Nat.add_le_add_left (hcount _) 0)
      have hquoted : Spends ('"' :: dquoteEscape (bytesToStr s) ++ '"' :: bytesToStr rest) 0
          (fun acc => 1 + acc.lines)
          (skipChar >>= fun _ => readDquoteParts nested span n >>= fun inner =>
            pure (({ had_quoting := false } : WordAcc).flush.quoting.add
              (.DoubleQuoted inner))) := by
        rw [← bind_assoc]
        refine .bind hinner fun inner src => .pure ?_
        rw [WordAcc.lines_add, WordAcc.lines_quoting, WordAcc.lines_flush]
        exact Nat.le_of_eq (congrArg (1 + ·) (Nat.zero_add _))
      exact .bind hquoted fun acc src =>
        ((spendsLines nested span (n + 1)).loop false acc src).add 1

theorem not_lexesTo_escaped (hnewline : 0x0A ∉ s) (hlast : s.getLast? = some 0x5C)
    (hhead : rest.head? = some 0x0A) : ¬ LexesTo nested (escaped s) rest s := by
  obtain ⟨us, hbytes, htext⟩ := bytesToStr_units s
  obtain ⟨tail, rfl⟩ := head?_eq_some_iff.mp hhead
  have hstart : StartsAscii (0x0A :: tail) := by
    intro b hb
    obtain rfl := Option.some.inj hb
    decide
  have hunits := isUnit_of_units hbytes hnewline
  have hsrc := text_escaped htext hstart
  have hlast' := (getLast?_units hbytes).mpr hlast
  rw [bytesToStr_ascii_cons (by decide)] at hsrc
  have hspends (n : Nat) (span : Span) := @spends_brokenUnits nested span { had_quoting := false }
    (us.map ShellUnit.text) (bytesToStr tail) hunits hlast' n rfl
  cases us with
  | nil => cases hlast'
  | cons u us =>
    rw [map_cons, flatMap_cons, cons_append, cons_append, append_assoc]
      at hsrc hspends
    exact not_lexesTo nested hsrc (.inr (.inr rfl))
      ((hunits _ mem_cons_self).not_continuation _) (count_escaped s) hspends

end

/-- **What quoting is undone by lexing.** In double quotes and in front of a newline a
backslash that is escaped is taken for the start of a line continuation; apart from that
each of the ways to quote gives the bytes back. -/
theorem lexing_undoes_quoting (nested : Nested) (s rest : ShellBytes) (hrest : FollowsWord rest) :
    (LexesTo nested (dquoted s) rest s ↔ ¬ [0x5C, 0x0A] <:+: s) ∧
    (0x27 ∉ s → LexesTo nested (squoted s) rest s) ∧
    (s ≠ [] → 0x0A ∉ s →
      (LexesTo nested (escaped s) rest s ↔
        ¬ (s.getLast? = some 0x5C ∧ rest.head? = some 0x0A))) := by
  refine ⟨⟨?_, lexesTo_dquoted nested hrest⟩, lexesTo_squoted nested hrest, fun hs hnewline =>
    ⟨?_, lexesTo_escaped nested hrest hs hnewline⟩⟩
  · exact fun hlexes hbreak => not_lexesTo_dquoted nested hbreak hlexes
  · exact fun hlexes h => not_lexesTo_escaped nested hnewline h.1 h.2 hlexes

/-- A parser that takes no enclosed text. -/
def refusesNested : Nested where
  parseCmdsubstContent _ _ := .error ⟨[], {}⟩
  parseWordPartsShell _ _ := .error ⟨[], {}⟩

/-- A backslash keeps to its escape in front of a blank, not inside in front of a newline. -/
theorem lexing_undoes_quoting_backslash :
    LexesTo refusesNested (escaped [0x5C]) [0x20] [0x5C] ∧
      ¬ LexesTo refusesNested (dquoted [0x61, 0x5C, 0x0A]) [0x20] [0x61, 0x5C, 0x0A] := by
  have hspace : FollowsWord [0x20] := by
    intro b hb
    obtain rfl := Option.some.inj hb
    decide
  have hone := lexing_undoes_quoting refusesNested [0x5C] [0x20] hspace
  have htwo := lexing_undoes_quoting refusesNested [0x61, 0x5C, 0x0A] [0x20] hspace
  refine ⟨(hone.2.2 (by decide) (by decide)).mpr ?_, fun h => htwo.1.mp h ?_⟩
  · rintro ⟨-, h⟩
    cases h
  · exact ⟨[0x61], [], rfl⟩

/-- A backslash and a newline, quoted for double quotes, are lost. -/
theorem dquoted_newline_is_lost : ¬ LexesTo refusesNested (dquoted [0x5C, 0x0A]) [] [0x5C, 0x0A] :=
  not_lexesTo_dquoted refusesNested ⟨[], [], rfl⟩

end Ish.Epsh
