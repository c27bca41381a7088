import Ish.Input.Reader

/-!
# Tokens

The keys and sequences of a byte string, without a reader: where one ends, or
that the bytes end inside it. A reader whose next bytes hold a whole token
decodes it, however the bytes are spread over the buffer, the pending bytes and
the reads to come.
-/

namespace Ish.Input

open Ish.Lib List
open EState (bind_ok)

/-! ## Scanning -/

def scanCsi : Params → List UInt8 → Option (Token × List UInt8)
  | _, [] => none
  | p, byte :: bytes =>
    match p.step byte with
    | .inl p => scanCsi p bytes
    | .inr token => some (token, bytes)

def scanUtf8 : Nat → Nat → List UInt8 → Option (Token × List UInt8)
  | 0, cp, bytes => some (charToken cp, bytes)
  | _ + 1, _, [] => none
  | more + 1, cp, byte :: bytes =>
    match utf8Step cp byte with
    | none => some (.nothing, bytes)
    | some cp => scanUtf8 more cp bytes

def scanSs3 : List UInt8 → Option (Token × List UInt8)
  | [] => none
  | byte :: bytes => some (ss3Token byte, bytes)

def scanEscape : List UInt8 → Option (Token × List UInt8)
  | [] => none
  | byte :: bytes =>
    if byte = 0x5b then scanCsi .new bytes
    else if byte = 0x4f then scanSs3 bytes
    else some (escapeToken byte, bytes)

/-- The first token and what follows it; `none` when the bytes end before the
token does. -/
def scanToken : List UInt8 → Option (Token × List UInt8)
  | [] => none
  | byte :: bytes =>
    if byte = ESC then scanEscape bytes
    else if byte < 0x80 then some (asciiToken byte, bytes)
    else match utf8Lead byte with
      | none => some (.nothing, bytes)
      | some (more, cp) => scanUtf8 more cp bytes

/-! ## Readers that have read on -/

/-- Every read of the terminal returns something. -/
def Reader.Wf (r : Reader) : Prop := ∀ chunk ∈ r.unread, chunk ≠ []

/-- The last read, if it is still to come, returns `final`. -/
def Reader.Ends (final : List UInt8) (r : Reader) : Prop :=
  final.length ≤ READ_BUF_SIZE ∧ (r.unread = [] ∨ ∃ before, r.unread = before ++ [final])

/-- `r'` is `r` with `bytes` still to come, and nothing else changed. -/
structure Moved (r r' : Reader) (bytes : List UInt8) : Prop where
  bytes : r'.bytes = bytes
  wf : r'.Wf
  pending : r.pending = [] → r'.pending = []
  ends : ∀ final, r.Ends final → r'.Ends final
  in_paste : r'.in_paste = r.in_paste
  paste_buf : r'.paste_buf = r.paste_buf
  paste_limit_hit : r'.paste_limit_hit = r.paste_limit_hit

theorem Moved.trans {r r' r'' bytes bytes'} (h : Moved r r' bytes)
    (h' : Moved r' r'' bytes') : Moved r r'' bytes' where
  bytes := h'.bytes
  wf := h'.wf
  pending := fun hempty => h'.pending (h.pending hempty)
  ends := fun final hfinal => h'.ends final (h.ends final hfinal)
  in_paste := h'.in_paste.trans h.in_paste
  paste_buf := h'.paste_buf.trans h.paste_buf
  paste_limit_hit := h'.paste_limit_hit.trans h.paste_limit_hit

variable {r : Reader} {byte : UInt8} {bytes more rest : List UInt8} {token : Token}

/-- What is left of the reads after one of `space` bytes. -/
theorem readTerminal_run (hwf : r.Wf) (hspace : 0 < space) (h : r.unread ≠ []) :
    ∃ chunk left, readTerminal space r = .ok chunk { r with unread := left } ∧ chunk ≠ [] ∧
      r.unread.flatten = chunk ++ left.flatten ∧ ∀ other ∈ left, other ≠ [] := by
  cases hunread : r.unread with
  | nil => exact absurd hunread h
  | cons chunk others =>
    have hchunk : chunk ≠ [] := hwf chunk (by simp [hunread])
    have hothers : ∀ other ∈ others, other ≠ [] := fun other hother =>
      hwf other (by simp [hunread, hother])
    have htaken : chunk.take space ≠ [] := by
      intro hempty
      rcases take_eq_nil_iff.mp hempty with hzero | hnil
      · omega
      · exact hchunk hnil
    simp only [readTerminal, hunread]
    refine ⟨_, _, rfl, htaken, ?_, ?_⟩
    · by_cases hdone : (chunk.drop space).isEmpty
      · rw [if_pos hdone, flatten_cons]
        have htake := take_append_drop space chunk
        rw [List.isEmpty_iff.mp hdone, append_nil] at htake
        rw [htake]
      · rw [if_neg hdone, flatten_cons, flatten_cons, ← append_assoc,
          take_append_drop]
    · intro other hother
      by_cases hdone : (chunk.drop space).isEmpty
      · rw [if_pos hdone] at hother
        exact hothers other hother
      · rw [if_neg hdone] at hother
        rcases mem_cons.mp hother with rfl | hmem
        · exact fun hnil => hdone (List.isEmpty_iff.mpr hnil)
        · exact hothers other hmem

/-- A read with room for the last one keeps it whole. -/
theorem readTerminal_ends
    (hread : readTerminal READ_BUF_SIZE r = .ok chunk r') (h : r.Ends final) : r'.Ends final := by
  obtain ⟨hlength, hnil | ⟨before, hbefore⟩⟩ := h
  · rw [readTerminal, hnil] at hread
    cases hread
  · refine ⟨hlength, ?_⟩
    cases before with
    | nil =>
      rw [nil_append] at hbefore
      rw [readTerminal, hbefore] at hread
      simp only [EStateM.Result.ok.injEq] at hread
      obtain ⟨-, rfl⟩ := hread
      exact .inl (if_pos (by simp [hlength]))
    | cons first before =>
      rw [cons_append] at hbefore
      rw [readTerminal, hbefore] at hread
      simp only [EStateM.Result.ok.injEq] at hread
      obtain ⟨-, rfl⟩ := hread
      by_cases hdone : (first.drop READ_BUF_SIZE).isEmpty
      · exact .inr ⟨before, if_pos hdone⟩
      · exact .inr ⟨first.drop READ_BUF_SIZE :: before, if_neg hdone⟩

theorem Reader.Ends.unread (h : r.Ends final)
    (hlength : r.bytes.length < final.length) : r.unread = [] := by
  obtain ⟨-, hnil | ⟨before, hbefore⟩⟩ := h
  · exact hnil
  · rw [Reader.bytes, hbefore] at hlength
    simp only [length_append, flatten_append, flatten_cons, flatten_nil,
      append_nil] at hlength
    omega

theorem bufferedByte_run (hwf : r.Wf) (h : r.rest = byte :: bytes) :
    ∃ r', bufferedByte r = .ok byte r' ∧
      Moved r r' (bytes ++ (r.pending ++ r.unread.flatten)) := by
  have hhead : (r.buf.drop r.buf_pos).headD 0 = byte := by
    rw [← Reader.rest, h]
    rfl
  have hrest : r.buf.drop (r.buf_pos + 1) = bytes := by
    rw [← drop_drop, ← Reader.rest, h]
    rfl
  refine ⟨{ r with buf_pos := r.buf_pos + 1 }, ?_, ?_, hwf, id, fun _ => id, rfl, rfl, rfl⟩
  · rw [bufferedByte, hhead]
  · rw [Reader.bytes, Reader.rest]
    exact congrArg (· ++ _) hrest

/-- **The next byte** is the next of all bytes to come. -/
theorem readByte_run (hwf : r.Wf) (h : r.bytes = byte :: bytes) :
    ∃ r', readByte r = .ok byte r' ∧ Moved r r' bytes := by
  rw [Reader.bytes] at h
  cases hrest : r.rest with
  | cons first others =>
    rw [hrest, cons_append, List.cons.injEq] at h
    obtain ⟨rfl, rfl⟩ := h
    obtain ⟨r', hrun, hmoved⟩ := bufferedByte_run hwf hrest
    refine ⟨r', (bind_ok EState.get_run).trans ?_, hmoved⟩
    rw [hrest]
    exact hrun
  | nil =>
    rw [hrest, nil_append] at h
    cases hpending : r.pending with
    | cons first others =>
      rw [hpending, cons_append, List.cons.injEq] at h
      obtain ⟨rfl, rfl⟩ := h
      refine ⟨{ r with pending := others }, (bind_ok EState.get_run).trans ?_, ?_, hwf, ?_,
        fun _ => id, rfl, rfl, rfl⟩
      · rw [hrest, hpending]
        rfl
      · rw [Reader.bytes]
        exact congrArg (· ++ _) hrest
      · intro hempty
        rw [hpending] at hempty
        cases hempty
    | nil =>
      rw [hpending, nil_append] at h
      have hne : r.unread ≠ [] := by
        intro hempty
        rw [hempty] at h
        cases h
      obtain ⟨chunk, left, hread, hchunk, hflatten, hleft⟩ :=
        readTerminal_run hwf (show 0 < READ_BUF_SIZE by decide) hne
      obtain ⟨first, others, rfl⟩ := exists_cons_of_ne_nil hchunk
      rw [hflatten, cons_append, List.cons.injEq] at h
      obtain ⟨rfl, rfl⟩ := h
      have hfill : fillBuf r =
          .ok () { r with buf := first :: others, buf_pos := 0, unread := left } :=
        bind_ok hread
      obtain ⟨r', hrun, hmoved⟩ := bufferedByte_run
        (r := { r with buf := first :: others, buf_pos := 0, unread := left }) hleft rfl
      refine ⟨r', (bind_ok EState.get_run).trans ?_, ?_⟩
      · rw [hrest, hpending]
        exact (bind_ok hfill).trans hrun
      · have hbytes := hmoved.bytes
        rw [hpending] at hbytes
        refine ⟨hbytes, hmoved.wf, fun _ => hmoved.pending hpending, ?_, hmoved.in_paste,
          hmoved.paste_buf, hmoved.paste_limit_hit⟩
        intro final hfinal
        have hends := readTerminal_ends hread hfinal
        exact hmoved.ends final hends

theorem buffered_or_unread (h : r.bytes ≠ []) : (r.buffered || !r.unread.isEmpty) = true := by
  by_contra hnone
  simp only [Reader.buffered, Bool.or_eq_true, Bool.not_eq_true', not_or, Bool.not_eq_false,
    List.isEmpty_iff] at hnone
  exact h (by simp [Reader.bytes, hnone.1.1, hnone.1.2, hnone.2])

theorem readByteTimeout_run (hwf : r.Wf) (h : r.bytes = byte :: bytes) :
    ∃ r', readByteTimeout r = .ok (some byte) r' ∧ Moved r r' bytes := by
  obtain ⟨r', hrun, hmoved⟩ := readByte_run hwf h
  have hthere := buffered_or_unread (r := r) (by simp [h])
  refine ⟨r', (bind_ok EState.get_run).trans ((congrFun (if_pos hthere) r).trans ?_), hmoved⟩
  exact (bind_ok hrun).trans rfl

/-! ## Whole tokens -/

theorem csiFrom_run (hwf : r.Wf) (hrounds : bytes.length ≤ rounds)
    (h : r.bytes = bytes ++ more) (hscan : scanCsi p bytes = some (token, rest)) :
    ∃ r', csiFrom rounds p r = perform token r' ∧ Moved r r' (rest ++ more) := by
  induction bytes generalizing r p rounds with
  | nil => cases hscan
  | cons byte bytes ih =>
    obtain ⟨rounds, rfl⟩ : ∃ n, rounds = n + 1 :=
      ⟨rounds - 1, by rw [length_cons] at hrounds; omega⟩
    obtain ⟨r', hread, hmoved⟩ := readByteTimeout_run hwf h
    rw [scanCsi] at hscan
    rw [csiFrom]
    cases hstep : p.step byte with
    | inl next =>
      rw [hstep] at hscan
      have hleft : bytes.length ≤ rounds := by
        rw [length_cons] at hrounds
        omega
      obtain ⟨r'', hrun, hmoved'⟩ := ih hmoved.wf hleft hmoved.bytes hscan
      refine ⟨r'', (bind_ok hread).trans ?_, hmoved.trans hmoved'⟩
      simp only [hstep]
      exact hrun
    | inr found =>
      rw [hstep] at hscan
      cases hscan
      refine ⟨r', (bind_ok hread).trans ?_, hmoved⟩
      simp only [hstep]

theorem utf8From_run {count cp} (hwf : r.Wf) (h : r.bytes = bytes ++ more)
    (hscan : scanUtf8 count cp bytes = some (token, rest)) :
    ∃ r', utf8From count cp r = perform token r' ∧ Moved r r' (rest ++ more) := by
  induction count generalizing r cp bytes with
  | zero =>
    rw [scanUtf8] at hscan
    cases hscan
    exact ⟨r, rfl, h, hwf, id, fun _ => id, rfl, rfl, rfl⟩
  | succ count ih =>
    cases bytes with
    | nil => cases hscan
    | cons byte bytes =>
      obtain ⟨r', hread, hmoved⟩ := readByte_run hwf h
      rw [scanUtf8] at hscan
      rw [utf8From]
      cases hstep : utf8Step cp byte with
      | none =>
        rw [hstep] at hscan
        cases hscan
        refine ⟨r', (bind_ok hread).trans ?_, hmoved⟩
        simp only [hstep]
        rfl
      | some next =>
        rw [hstep] at hscan
        obtain ⟨r'', hrun, hmoved'⟩ := ih hmoved.wf hmoved.bytes hscan
        refine ⟨r'', (bind_ok hread).trans ?_, hmoved.trans hmoved'⟩
        simp only [hstep]
        exact hrun

theorem decodeEscape_run (hwf : r.Wf) (h : r.bytes = bytes ++ more)
    (hscan : scanEscape bytes = some (token, rest)) :
    ∃ r', decodeEscape r = perform token r' ∧ Moved r r' (rest ++ more) := by
  cases bytes with
  | nil => cases hscan
  | cons byte bytes =>
    rw [cons_append] at h
    obtain ⟨r', hread, hmoved⟩ := readByteTimeout_run hwf h
    rw [scanEscape] at hscan
    by_cases hcsi : byte = 0x5b
    · rw [if_pos hcsi] at hscan
      have hrounds : bytes.length ≤ r'.bytes.length + 1 := by
        rw [hmoved.bytes]
        exact Nat.le_succ_of_le (length_append ▸ Nat.le_add_right _ _)
      obtain ⟨r'', hrun, hmoved'⟩ := csiFrom_run hmoved.wf hrounds hmoved.bytes hscan
      refine ⟨r'', (bind_ok hread).trans ?_, hmoved.trans hmoved'⟩
      simp only [if_pos hcsi]
      exact (bind_ok EState.get_run).trans hrun
    rw [if_neg hcsi] at hscan
    by_cases hss3 : byte = 0x4f
    · rw [if_pos hss3] at hscan
      cases bytes with
      | nil => cases hscan
      | cons final bytes =>
        rw [scanSs3] at hscan
        cases hscan
        obtain ⟨r'', hread', hmoved'⟩ := readByteTimeout_run hmoved.wf hmoved.bytes
        refine ⟨r'', (bind_ok hread).trans ?_, hmoved.trans hmoved'⟩
        simp only [if_neg hcsi, if_pos hss3]
        exact (bind_ok hread').trans rfl
    · rw [if_neg hss3] at hscan
      cases hscan
      refine ⟨r', (bind_ok hread).trans ?_, hmoved⟩
      simp only [if_neg hcsi, if_neg hss3]

/-- **A whole token is decoded** from the bytes to come, wherever they are. -/
theorem decodeKey_run (hwf : r.Wf) (h : r.bytes = bytes ++ more)
    (hscan : scanToken bytes = some (token, rest)) :
    ∃ r', decodeKey r = perform token r' ∧ Moved r r' (rest ++ more) := by
  cases bytes with
  | nil => cases hscan
  | cons byte bytes =>
    obtain ⟨r', hread, hmoved⟩ := readByte_run hwf h
    rw [scanToken] at hscan
    by_cases hesc : byte = ESC
    · rw [if_pos hesc] at hscan
      obtain ⟨r'', hrun, hmoved'⟩ := decodeEscape_run hmoved.wf hmoved.bytes hscan
      refine ⟨r'', (bind_ok hread).trans ?_, hmoved.trans hmoved'⟩
      simp only [if_pos hesc]
      exact hrun
    rw [if_neg hesc] at hscan
    by_cases hascii : byte < 0x80
    · rw [if_pos hascii] at hscan
      cases hscan
      refine ⟨r', (bind_ok hread).trans ?_, hmoved⟩
      simp only [if_neg hesc, if_pos hascii]
    rw [if_neg hascii] at hscan
    cases hlead : utf8Lead byte with
    | none =>
      rw [hlead] at hscan
      cases hscan
      refine ⟨r', (bind_ok hread).trans ?_, hmoved⟩
      simp only [if_neg hesc, if_neg hascii, decodeUtf8, hlead]
      rfl
    | some lead =>
      obtain ⟨count, cp⟩ := lead
      rw [hlead] at hscan
      obtain ⟨r'', hrun, hmoved'⟩ := utf8From_run hmoved.wf hmoved.bytes hscan
      refine ⟨r'', (bind_ok hread).trans ?_, hmoved.trans hmoved'⟩
      simp only [if_neg hesc, if_neg hascii, decodeUtf8, hlead]
      exact hrun

/-! ## What a token takes -/

theorem scanCsi_suffix (h : scanCsi p bytes = some (token, rest)) :
    ∃ taken, bytes = taken ++ rest := by
  induction bytes generalizing p with
  | nil => cases h
  | cons byte bytes ih =>
    rw [scanCsi] at h
    cases hstep : p.step byte with
    | inl next =>
      rw [hstep] at h
      obtain ⟨taken, heq⟩ := ih h
      exact ⟨byte :: taken, by rw [heq, cons_append]⟩
    | inr found =>
      rw [hstep] at h
      cases h
      exact ⟨[byte], rfl⟩

theorem scanUtf8_suffix {count cp} (h : scanUtf8 count cp bytes = some (token, rest)) :
    ∃ taken, bytes = taken ++ rest := by
  induction count generalizing cp bytes with
  | zero =>
    rw [scanUtf8] at h
    cases h
    exact ⟨[], rfl⟩
  | succ count ih =>
    cases bytes with
    | nil => cases h
    | cons byte bytes =>
      rw [scanUtf8] at h
      cases hstep : utf8Step cp byte with
      | none =>
        rw [hstep] at h
        cases h
        exact ⟨[byte], rfl⟩
      | some next =>
        rw [hstep] at h
        obtain ⟨taken, heq⟩ := ih h
        exact ⟨byte :: taken, by rw [heq, cons_append]⟩

theorem scanEscape_suffix (h : scanEscape bytes = some (token, rest)) :
    ∃ taken, bytes = taken ++ rest := by
  cases bytes with
  | nil => cases h
  | cons byte bytes =>
    rw [scanEscape] at h
    split at h
    · obtain ⟨taken, heq⟩ := scanCsi_suffix h
      exact ⟨byte :: taken, by rw [heq, cons_append]⟩
    split at h
    · cases bytes with
      | nil => cases h
      | cons final bytes =>
        rw [scanSs3] at h
        cases h
        exact ⟨[byte, final], rfl⟩
    · cases h
      exact ⟨[byte], rfl⟩

/-- A token takes at least one byte. -/
theorem scanToken_suffix (h : scanToken bytes = some (token, rest)) :
    ∃ taken, taken ≠ [] ∧ bytes = taken ++ rest := by
  cases bytes with
  | nil => cases h
  | cons byte bytes =>
    suffices hrest : ∃ taken, bytes = taken ++ rest by
      obtain ⟨taken, heq⟩ := hrest
      exact ⟨byte :: taken, cons_ne_nil _ _, by rw [heq, cons_append]⟩
    rw [scanToken] at h
    split at h
    · exact scanEscape_suffix h
    split at h
    · cases h
      exact ⟨[], rfl⟩
    · cases hlead : utf8Lead byte with
      | none =>
        rw [hlead] at h
        cases h
        exact ⟨[], rfl⟩
      | some lead =>
        rw [hlead] at h
        exact scanUtf8_suffix h

end Ish.Input
