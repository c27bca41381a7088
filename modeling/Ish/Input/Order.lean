import Ish.Input.Paste
import Ish.Input.Skip

/-!
# Events in the order of the bytes

What `read_event` of `src/input.rs` is for: the bytes to come, taken in order,
are sequences that stand for keys, for nothing or for the ends of a paste, and
the first event they make is returned with the bytes behind it still to come.
Whatever the reader is told of the terminal, an event it returns is that one.
-/

namespace Ish.Input

open Ish.Lib List
open EState (bind_ok bind_error bind_eq_ok)

/-! ## The first event -/

/-- The first sequence when nothing else is to come: a lone escape is a key, any
other cut sequence of an escape is dropped, and a cut character is waited for. -/
def decoded (bytes : List UInt8) : Option (Token × List UInt8) :=
  match scanToken bytes with
  | some found => some found
  | none =>
    if bytes = [ESC] then some (.key (.ofKey .Escape), [])
    else if bytes.head? = some ESC then some (.nothing, [])
    else none

/-- Outside of a paste, in one with its text so far, or in one past the limit. -/
inductive Mode where
  | outside
  | inside (text : List Char)
  | rejected
  deriving DecidableEq

/-- A sequence outside of a paste or in one within the limit: reading goes on,
or there is an event. -/
def Mode.step : Mode → Token → Mode ⊕ InputEvent
  | .inside text, .key key =>
    if utf8Len (text ++ keyText key) > PASTE_LIMIT then .inl .rejected
    else .inl (.inside (text ++ keyText key))
  | .inside text, .pasteEnd => if text = [] then .inl .outside else .inr (.Paste text)
  | _, .key key => .inr (.Key key)
  | _, .pasteStart => .inl (.inside [])
  | mode, _ => .inl mode

def nextFrom : Nat → Mode → List UInt8 → Option (InputEvent × List UInt8)
  | 0, _, _ => none
  | _ + 1, .rejected, bytes => (afterMarker bytes).map (.PasteRejected, ·)
  | fuel + 1, mode, bytes =>
    match decoded bytes with
    | none => none
    | some (token, rest) =>
      match mode.step token with
      | .inr event => some (event, rest)
      | .inl mode => nextFrom fuel mode rest

/-- The first event of the bytes, and what follows it. -/
def nextEvent (mode : Mode) (bytes : List UInt8) : Option (InputEvent × List UInt8) :=
  nextFrom (bytes.length + 1) mode bytes

variable {r r' : Reader} {bytes rest : List UInt8} {token : Token}

theorem decoded_length (h : decoded bytes = some (token, rest)) : rest.length < bytes.length := by
  rw [decoded] at h
  split at h
  · next found hscan =>
      cases h
      obtain ⟨taken, hne, heq⟩ := scanToken_suffix hscan
      have hpos := length_pos_iff.mpr hne
      rw [heq, length_append]
      omega
  · next hscan =>
      have hne : bytes ≠ [] := by
        rintro rfl
        cases h
      have hpos := length_pos_iff.mpr hne
      split_ifs at h
      · cases h
        exact hpos
      · cases h
        exact hpos

section Next

variable {mode : Mode}

theorem nextFrom_fuel (h : bytes.length < fuel) :
    nextFrom fuel mode bytes = nextEvent mode bytes := by
  rw [nextEvent]
  have hgo : ∀ n fuel mode bytes, bytes.length = n → n < fuel →
      nextFrom fuel mode bytes = nextFrom (n + 1) mode bytes := by
    intro n
    induction n using Nat.strong_induction_on with
    | _ n ih =>
      intro fuel mode bytes hlength hfuel
      obtain ⟨fuel, rfl⟩ : ∃ k, fuel = k + 1 := ⟨fuel - 1, by omega⟩
      have hnot : ∀ mode, mode ≠ .rejected →
          nextFrom (fuel + 1) mode bytes = nextFrom (n + 1) mode bytes := by
        intro mode hmode
        rw [nextFrom, nextFrom]
        · cases hdecoded : decoded bytes with
          | none => rfl
          | some found =>
            obtain ⟨token, rest⟩ := found
            dsimp only
            cases hstep : mode.step token with
            | inr event => rfl
            | inl next =>
              have hshort := decoded_length hdecoded
              dsimp only
              rw [ih rest.length (by omega) fuel next rest rfl (by omega),
                ih rest.length (by omega) n next rest rfl (by omega)]
        · exact hmode
        · exact hmode
      cases mode with
      | rejected => rfl
      | outside => exact hnot _ nofun
      | inside text => exact hnot _ nofun
  exact hgo bytes.length fuel mode bytes rfl h

theorem nextEvent_rejected (bytes : List UInt8) :
    nextEvent .rejected bytes = (afterMarker bytes).map (.PasteRejected, ·) := rfl

/-- One sequence. -/
theorem nextEvent_eq (hmode : mode ≠ .rejected) :
    nextEvent mode bytes =
      match decoded bytes with
      | none => none
      | some (token, rest) =>
        match mode.step token with
        | .inr event => some (event, rest)
        | .inl mode => nextEvent mode rest := by
  rw [nextEvent, nextFrom]
  · cases hdecoded : decoded bytes with
    | none => rfl
    | some found =>
      obtain ⟨token, rest⟩ := found
      dsimp only
      cases mode.step token with
      | inr event => rfl
      | inl next => exact nextFrom_fuel (decoded_length hdecoded)
  · exact hmode

end Next

/-! ## Decoding what is cut short -/

theorem Reader.bytes_eq_nil (hwf : r.Wf) (h : r.bytes = []) :
    r.rest = [] ∧ r.pending = [] ∧ r.unread = [] := by
  simp only [Reader.bytes, append_eq_nil_iff, flatten_eq_nil_iff] at h
  refine ⟨h.1, h.2.1, ?_⟩
  cases hunread : r.unread with
  | nil => rfl
  | cons chunk others =>
    have hmem : chunk ∈ r.unread := by simp [hunread]
    exact absurd (h.2.2 chunk hmem) (hwf chunk hmem)

theorem readByte_nil (hwf : r.Wf) (h : r.bytes = []) : readByte r = .error .waiting r := by
  obtain ⟨hrest, hpending, hunread⟩ := r.bytes_eq_nil hwf h
  have hread : readTerminal READ_BUF_SIZE r = .error .waiting r := by
    rw [readTerminal, hunread]
  refine (bind_ok EState.get_run).trans ?_
  rw [hrest, hpending]
  exact bind_error (bind_error hread)

theorem readByteTimeout_nil (hwf : r.Wf) (h : r.bytes = []) : readByteTimeout r = .ok none r := by
  obtain ⟨hrest, hpending, hunread⟩ := r.bytes_eq_nil hwf h
  refine (bind_ok EState.get_run).trans ?_
  simp [Reader.buffered, hrest, hpending, hunread]

theorem moved_refl (hwf : r.Wf) : Moved r r r.bytes :=
  ⟨rfl, hwf, id, fun _ => id, rfl, rfl, rfl⟩

theorem csiFrom_cut (hwf : r.Wf) (hrounds : r.bytes.length < rounds)
    (hscan : scanCsi p r.bytes = none) :
    ∃ r', csiFrom rounds p r = .ok none r' ∧ Moved r r' [] := by
  generalize hbytes : r.bytes = bytes at *
  induction bytes generalizing r p rounds with
  | nil =>
    obtain ⟨rounds, rfl⟩ : ∃ n, rounds = n + 1 := ⟨rounds - 1, by omega⟩
    exact ⟨r, bind_ok (readByteTimeout_nil hwf hbytes), hbytes ▸ moved_refl hwf⟩
  | cons byte bytes ih =>
    rw [length_cons] at hrounds
    obtain ⟨rounds, rfl⟩ : ∃ n, rounds = n + 1 := ⟨rounds - 1, by omega⟩
    obtain ⟨r', hread, hmoved⟩ := readByteTimeout_run hwf hbytes
    rw [scanCsi] at hscan
    rw [csiFrom]
    cases hstep : p.step byte with
    | inr found =>
      rw [hstep] at hscan
      cases hscan
    | inl next =>
      rw [hstep] at hscan
      have hleft : bytes.length < rounds := by omega
      obtain ⟨r'', hrun, hmoved'⟩ := ih hmoved.wf hmoved.bytes hleft hscan
      refine ⟨r'', (bind_ok hread).trans ?_, hmoved.trans hmoved'⟩
      simp only [hstep]
      exact hrun

theorem utf8From_cut {count cp} (hwf : r.Wf) (hscan : scanUtf8 count cp r.bytes = none) :
    ∃ r', utf8From count cp r = .error .waiting r' ∧ Moved r r' [] := by
  induction count generalizing r cp with
  | zero => cases hscan
  | succ count ih =>
    rw [utf8From]
    cases hbytes : r.bytes with
    | nil => exact ⟨r, bind_error (readByte_nil hwf hbytes), hbytes ▸ moved_refl hwf⟩
    | cons byte bytes =>
      obtain ⟨r', hread, hmoved⟩ := readByte_run hwf hbytes
      rw [hbytes, scanUtf8] at hscan
      cases hstep : utf8Step cp byte with
      | none =>
        rw [hstep] at hscan
        cases hscan
      | some next =>
        rw [hstep, ← hmoved.bytes] at hscan
        obtain ⟨r'', hrun, hmoved'⟩ := ih hmoved.wf hscan
        refine ⟨r'', (bind_ok hread).trans ?_, hmoved.trans hmoved'⟩
        simp only [hstep]
        exact hrun

theorem decodeEscape_cut (hwf : r.Wf) (hscan : scanEscape r.bytes = none) :
    ∃ r', decodeEscape r = .ok (if r.bytes = [] then some (.ofKey .Escape) else none) r' ∧
      Moved r r' [] := by
  cases hbytes : r.bytes with
  | nil => exact ⟨r, bind_ok (readByteTimeout_nil hwf hbytes), hbytes ▸ moved_refl hwf⟩
  | cons byte bytes =>
    obtain ⟨r', hread, hmoved⟩ := readByteTimeout_run hwf hbytes
    rw [hbytes, scanEscape] at hscan
    by_cases hcsi : byte = 0x5b
    · rw [if_pos hcsi, ← hmoved.bytes] at hscan
      obtain ⟨r'', hrun, hmoved'⟩ := csiFrom_cut hmoved.wf (Nat.lt_succ_self _) hscan
      refine ⟨r'', (bind_ok hread).trans ?_, hmoved.trans hmoved'⟩
      simp only [if_pos hcsi]
      exact (bind_ok EState.get_run).trans hrun
    rw [if_neg hcsi] at hscan
    by_cases hss3 : byte = 0x4f
    · rw [if_pos hss3] at hscan
      cases bytes with
      | cons final bytes => cases hscan
      | nil =>
        refine ⟨r', (bind_ok hread).trans ?_, hmoved⟩
        simp only [if_neg hcsi, if_pos hss3]
        exact bind_ok (readByteTimeout_nil hmoved.wf hmoved.bytes)
    · rw [if_neg hss3] at hscan
      cases hscan

/-- **Decoding** the bytes to come: their first sequence is performed, or its
rest is waited for. -/
theorem decodeKey_eq (hwf : r.Wf) :
    match decoded r.bytes with
    | some (token, rest) => ∃ r', decodeKey r = perform token r' ∧ Moved r r' rest
    | none => ∃ r', decodeKey r = .error .waiting r' ∧ Moved r r' [] := by
  rw [decoded]
  cases hscan : scanToken r.bytes with
  | some found =>
    obtain ⟨r', hrun, hmoved⟩ :=
      decodeKey_run hwf (append_nil _).symm hscan
    rw [append_nil] at hmoved
    exact ⟨r', hrun, hmoved⟩
  | none =>
    cases hbytes : r.bytes with
    | nil => exact ⟨r, bind_error (readByte_nil hwf hbytes), hbytes ▸ moved_refl hwf⟩
    | cons byte bytes =>
      obtain ⟨r', hread, hmoved⟩ := readByte_run hwf hbytes
      rw [hbytes, scanToken] at hscan
      by_cases hesc : byte = ESC
      · rw [if_pos hesc, ← hmoved.bytes] at hscan
        obtain ⟨r'', hrun, hmoved'⟩ := decodeEscape_cut hmoved.wf hscan
        rw [hmoved.bytes] at hrun
        have hkey : decodeKey r = decodeEscape r' := by
          refine (bind_ok hread).trans ?_
          simp only [if_pos hesc]
        rw [head?_cons, hesc, if_pos (rfl : some ESC = some ESC)]
        by_cases hnil : bytes = []
        · rw [if_pos hnil] at hrun
          rw [if_pos (by rw [hnil])]
          exact ⟨r'', hkey.trans hrun, hmoved.trans hmoved'⟩
        · rw [if_neg hnil] at hrun
          rw [if_neg (by simpa using hnil)]
          exact ⟨r'', hkey.trans hrun, hmoved.trans hmoved'⟩
      rw [if_neg hesc] at hscan
      rw [if_neg (by simp [hesc]), if_neg (by simpa using hesc)]
      by_cases hascii : byte < 0x80
      · rw [if_pos hascii] at hscan
        cases hscan
      rw [if_neg hascii] at hscan
      cases hlead : utf8Lead byte with
      | none =>
        rw [hlead] at hscan
        cases hscan
      | some lead =>
        obtain ⟨count, cp⟩ := lead
        rw [hlead, ← hmoved.bytes] at hscan
        obtain ⟨r'', hrun, hmoved'⟩ := utf8From_cut hmoved.wf hscan
        refine ⟨r'', (bind_ok hread).trans ?_, hmoved.trans hmoved'⟩
        simp only [if_neg hesc, if_neg hascii, decodeUtf8, hlead]
        exact hrun

/-! ## The state of a reader -/

namespace Reader

/-- How the sequences to come are taken. -/
def mode (r : Reader) : Mode :=
  if r.in_paste then if r.paste_limit_hit then .rejected else .inside r.paste_buf else .outside

/-- A reader between events: outside of a paste it has nothing of one, and past
the limit it keeps no text. -/
structure Sound (r : Reader) : Prop where
  outside : r.in_paste = false → r.paste_buf = [] ∧ r.paste_limit_hit = false
  rejected : r.paste_limit_hit = true → r.paste_buf = []

theorem mode_outside (h : r.in_paste = false) : r.mode = .outside := by
  rw [mode, h]
  rfl

theorem mode_inside (h : r.in_paste = true) (hlimit : r.paste_limit_hit = false) :
    r.mode = .inside r.paste_buf := by
  rw [mode, h, hlimit]
  rfl

theorem mode_rejected (h : r.in_paste = true) (hlimit : r.paste_limit_hit = true) :
    r.mode = .rejected := by
  rw [mode, h, hlimit]
  rfl

end Reader

theorem Moved.mode {bytes} (h : Moved r r' bytes) : r'.mode = r.mode := by
  rw [Reader.mode, Reader.mode, h.in_paste, h.paste_buf, h.paste_limit_hit]

theorem Moved.sound {bytes} (h : Moved r r' bytes) (hr : r.Sound) : r'.Sound where
  outside := by
    rw [h.in_paste, h.paste_buf, h.paste_limit_hit]
    exact hr.outside
  rejected := by
    rw [h.paste_buf, h.paste_limit_hit]
    exact hr.rejected

theorem accumulate_mode (hwf : r.Wf) (hin : r.in_paste = true)
    (hlimit : r.paste_limit_hit = false) (key : KeyEvent) :
    ∃ r', accumulatePasteKey key r = .ok () r' ∧ r'.bytes = r.bytes ∧ r'.Wf ∧ r'.Sound ∧
      r'.in_paste = true ∧ r'.pending = r.pending ∧ r'.rest = r.rest ∧ r'.unread = r.unread ∧
      r.mode.step (.key key) = .inl r'.mode := by
  rw [r.mode_inside hin hlimit, Mode.step]
  by_cases hover : utf8Len (r.paste_buf ++ keyText key) > PASTE_LIMIT
  · rw [if_pos hover]
    refine ⟨{ r with paste_limit_hit := true, paste_buf := [] },
      accumulate_over hlimit hover, rfl, hwf, ⟨?_, fun _ => rfl⟩, hin, rfl, rfl, rfl, ?_⟩
    · intro hout
      rw [show r.in_paste = false from hout] at hin
      cases hin
    · exact congrArg Sum.inl (@Reader.mode_rejected
        { r with paste_limit_hit := true, paste_buf := [] } hin rfl).symm
  · rw [if_neg hover]
    refine ⟨{ r with paste_buf := r.paste_buf ++ keyText key },
      accumulate_within hlimit (Nat.le_of_not_lt hover), rfl, hwf, ⟨?_, ?_⟩, hin, rfl, rfl, rfl, ?_⟩
    · intro hout
      rw [show r.in_paste = false from hout] at hin
      cases hin
    · intro hhit
      rw [show r.paste_limit_hit = true from hhit] at hlimit
      cases hlimit
    · exact congrArg Sum.inl (@Reader.mode_inside
        { r with paste_buf := r.paste_buf ++ keyText key } hin hlimit).symm

theorem perform_mode (hr : r.Sound) (hwf : r.Wf) (hlimit : r.paste_limit_hit = false)
    (hkey : ∀ key, token ≠ .key key) :
    ∃ r', perform token r = .ok none r' ∧ r'.bytes = r.bytes ∧ r'.Wf ∧
      r'.pending = r.pending ∧ r'.rest = r.rest ∧ r'.unread = r.unread ∧
      r'.paste_limit_hit = false ∧
      (r'.in_paste = true → r'.Sound ∧ r.mode.step token = .inl r'.mode) ∧
      (r'.in_paste = false → r.mode.step token =
        if r'.paste_buf = [] then .inl .outside else .inr (.Paste r'.paste_buf)) := by
  cases token with
  | key key => exact absurd rfl (hkey key)
  | nothing =>
    refine ⟨r, rfl, rfl, hwf, rfl, rfl, rfl, hlimit, fun hin => ⟨hr, ?_⟩, fun hout => ?_⟩
    · rw [r.mode_inside hin hlimit]
      rfl
    · rw [r.mode_outside hout, if_pos (hr.outside hout).1]
      rfl
  | pasteStart =>
    refine ⟨{ r with in_paste := true, paste_buf := [], paste_limit_hit := false }, rfl, rfl, hwf,
      rfl, rfl, rfl, rfl, fun _ => ⟨⟨nofun, nofun⟩, ?_⟩, nofun⟩
    cases hin : r.in_paste with
    | true =>
      rw [r.mode_inside hin hlimit]
      rfl
    | false =>
      rw [r.mode_outside hin]
      rfl
  | pasteEnd =>
    refine ⟨{ r with in_paste := false }, rfl, rfl, hwf, rfl, rfl, rfl, hlimit, nofun, fun _ => ?_⟩
    cases hin : r.in_paste with
    | true =>
      rw [r.mode_inside hin hlimit]
      rfl
    | false =>
      rw [r.mode_outside hin, if_pos (hr.outside hin).1]
      rfl

/-! ## Dropping a rejected paste -/

/-- `r'` has the same bytes to come as `r`, in other places. -/
structure Shifted (r r' : Reader) : Prop where
  bytes : r'.bytes = r.bytes
  unread : r'.unread = r.unread
  in_paste : r'.in_paste = r.in_paste
  paste_buf : r'.paste_buf = r.paste_buf
  paste_limit_hit : r'.paste_limit_hit = r.paste_limit_hit

theorem shiftPending_shifted (r : Reader) :
    ∃ b r', shiftPendingIntoBuf r = .ok b r' ∧ Shifted r r' := by
  rw [shiftPendingIntoBuf]
  split
  · exact ⟨_, r, rfl, rfl, rfl, rfl, rfl, rfl⟩
  split
  · exact ⟨_, r, rfl, rfl, rfl, rfl, rfl, rfl⟩
  · refine ⟨_, _, rfl, ?_, rfl, rfl, rfl, rfl⟩
    rw [Reader.bytes, Reader.bytes, Reader.rest, Reader.rest]
    dsimp only
    by_cases hempty : (r.buf.drop r.buf_pos).isEmpty
    · rw [if_pos hempty, if_pos hempty, List.isEmpty_iff.mp hempty, drop_zero,
        nil_append, nil_append, ← append_assoc, take_append_drop]
    · have hle : r.buf_pos ≤ r.buf.length := by
        by_contra hlt
        exact hempty (List.isEmpty_iff.mpr (drop_eq_nil_of_le (by omega)))
      rw [if_neg hempty, if_neg hempty, drop_append_of_le_length hle, append_assoc,
        ← append_assoc (r.pending.take _), take_append_drop]

/-- What `skip_paste_remainder` leaves when it is done. -/
structure Skipped (r r' : Reader) : Prop where
  marker : afterMarker r.bytes = some r'.bytes
  wf : r'.Wf
  in_paste : r'.in_paste = false
  paste_buf : r'.paste_buf = r.paste_buf
  paste_limit_hit : r'.paste_limit_hit = r.paste_limit_hit

theorem Skipped.of_same (h : Skipped s r')
    (hmarker : afterMarker s.bytes = afterMarker r.bytes) (hbuf : s.paste_buf = r.paste_buf)
    (hlimit : s.paste_limit_hit = r.paste_limit_hit) : Skipped r r' where
  marker := hmarker ▸ h.marker
  wf := h.wf
  in_paste := h.in_paste
  paste_buf := h.paste_buf.trans hbuf
  paste_limit_hit := h.paste_limit_hit.trans hlimit

theorem readTerminal_ok (hwf : r.Wf) {space} (hspace : 0 < space) {chunk}
    (h : readTerminal space r = .ok chunk r') :
    ∃ left, r' = { r with unread := left } ∧ r.unread.flatten = chunk ++ left.flatten ∧
      ∀ other ∈ left, other ≠ [] := by
  by_cases hunread : r.unread = []
  · rw [readTerminal, hunread] at h
    cases h
  · obtain ⟨found, left, hread, -, hflatten, hleft⟩ := readTerminal_run hwf hspace hunread
    rw [hread] at h
    cases h
    exact ⟨left, rfl, hflatten, hleft⟩

/-- Without room in the buffer or without pending bytes nothing is shifted. -/
theorem shiftPending_false (hroom : r.rest = [] ∨ r.buf.length < READ_BUF_SIZE)
    (h : shiftPendingIntoBuf r = .ok false r') : r' = r ∧ r.pending = [] := by
  rw [shiftPendingIntoBuf] at h
  split at h
  · next hempty =>
      cases h
      exact ⟨rfl, List.isEmpty_iff.mp hempty⟩
  next hpending =>
    split at h
    · next hfull =>
        simp only [Bool.and_eq_true, Bool.not_eq_true', decide_eq_true_iff] at hfull
        rcases hroom with hrest | hroom
        · rw [hrest] at hfull
          cases hfull.1
        · omega
    · exfalso
      simp only [EStateM.Result.ok.injEq, Bool.not_eq_false', List.isEmpty_iff,
        take_eq_nil_iff] at h
      rcases h.1 with hspace | hnil
      · rcases hroom with hrest | hroom
        · rw [hrest] at hspace
          simp [READ_BUF_SIZE] at hspace
        · split at hspace
          · simp [READ_BUF_SIZE] at hspace
          · omega
      · exact hpending (List.isEmpty_iff.mpr hnil)

/-- **When the rest of a paste is skipped**, its first marker is what ends it. -/
theorem skipFrom_ok (hwf : r.Wf) (h : skipFrom rounds r = .ok () r') :
    Skipped r r' := by
  induction rounds generalizing r with
  | zero => cases h
  | succ rounds ih =>
    cases skipFrom_round rounds r with
    | refill hrest hrun =>
      obtain ⟨shifted, r₁, hshift, hshifted⟩ := shiftPending_shifted r
      rw [hrun, bind_ok hshift] at h
      cases shifted with
      | true =>
        have hwf₁ : r₁.Wf := by
          rw [Reader.Wf, hshifted.unread]
          exact hwf
        exact (ih hwf₁ h).of_same (by rw [hshifted.bytes]) hshifted.paste_buf
          hshifted.paste_limit_hit
      | false =>
        obtain ⟨rfl, hpending⟩ := shiftPending_false (Or.inl hrest) hshift
        obtain ⟨_, r₂, hfill, hloop⟩ := bind_eq_ok.mp h
        obtain ⟨chunk, r₃, hread, hset⟩ := bind_eq_ok.mp hfill
        obtain ⟨left, rfl, hflatten, hleft⟩ := readTerminal_ok hwf (by decide) hread
        cases hset
        refine (@ih { r₁ with buf := chunk, buf_pos := 0, unread := left } hleft
          hloop).of_same ?_ rfl rfl
        show afterMarker (chunk.drop 0 ++ (r₁.pending ++ left.flatten)) = _
        rw [Reader.bytes, hrest, hpending, hflatten, nil_append]
        rfl
    | plain _ hescape hrun =>
      rw [hrun] at h
      refine (@ih { r with buf_pos := r.buf.length } hwf h).of_same ?_ rfl rfl
      rw [Reader.bytes, Reader.bytes, afterMarker_append hescape, Reader.rest, drop_length]
      rfl
    | marker hbefore hrest hpos hrun =>
      rw [hrun] at h
      cases h
      refine ⟨?_, hwf, rfl, rfl, rfl⟩
      rw [Reader.bytes, hrest, append_assoc, afterMarker_append hbefore, append_assoc,
        afterMarker_marker, ← hpos]
      rfl
    | @short before after hbefore hrest _ hlength hrun =>
      have hmarker : afterMarker r.bytes = afterMarker (after ++ (r.pending ++ r.unread.flatten)) := by
        rw [Reader.bytes, hrest, append_assoc, afterMarker_append hbefore]
      rw [hrun] at h
      by_cases hunread : r.unread.isEmpty
      · rw [if_pos hunread] at h
        cases h
      rw [if_neg hunread] at h
      have hshort : after.length < READ_BUF_SIZE := by
        have hsix : PASTE_END.length = 6 := rfl
        rw [READ_BUF_SIZE]
        omega
      obtain ⟨shifted, r₁, hshift, hshifted⟩ :=
        shiftPending_shifted { r with buf := after, buf_pos := 0 }
      replace h := (bind_ok hshift).symm.trans h
      cases shifted with
      | true =>
        have hwf₁ : r₁.Wf := by
          rw [Reader.Wf, hshifted.unread]
          exact hwf
        refine (ih hwf₁ h).of_same ?_ hshifted.paste_buf hshifted.paste_limit_hit
        rw [hmarker, hshifted.bytes]
        rfl
      | false =>
        obtain ⟨rfl, hpending⟩ := shiftPending_false (Or.inr hshort) hshift
        obtain ⟨chunk, r₂, hread, hloop⟩ := bind_eq_ok.mp h
        have hspace : 0 < READ_BUF_SIZE - after.length := by omega
        obtain ⟨left, rfl, hflatten, hleft⟩ :=
          @readTerminal_ok { r with buf := after, buf_pos := 0 } _ hwf _ hspace chunk hread
        refine (@ih { r with buf := after ++ chunk, buf_pos := 0, unread := left } hleft
          hloop).of_same ?_ rfl rfl
        rw [hmarker]
        show afterMarker ((after ++ chunk) ++ (r.pending ++ left.flatten)) = _
        have hflatten : r.unread.flatten = chunk ++ left.flatten := hflatten
        have hpending : r.pending = [] := hpending
        rw [hpending, hflatten, append_assoc, nil_append, nil_append]
    | @other before tail pos hbefore hrest _ hother hpos hrun =>
      rw [hrun] at h
      refine (@ih { r with buf_pos := pos } hwf h).of_same ?_ rfl rfl
      rw [Reader.bytes, Reader.bytes, hrest, append_assoc, afterMarker_append hbefore,
        cons_append, afterMarker_cons (hother _), ← hpos]
      rfl

/-! ## Any run that returns an event -/

/-- A reading whose events are the first of the bytes, and leave what follows
them to come. -/
def InOrder (reading : Reading InputEvent) : Prop :=
  ∀ r r' event, r.Sound → r.Wf → reading r = .ok event r' →
    nextEvent r.mode r.bytes = some (event, r'.bytes) ∧ r'.Sound ∧ r'.Wf

theorem decodeKey_ok (hr : r.Sound) (hwf : r.Wf) (hlimit : r.paste_limit_hit = false) (h : decodeKey r = .ok found r') :
    ∃ token rest, decoded r.bytes = some (token, rest) ∧ r'.bytes = rest ∧ r'.Wf ∧
      r'.paste_limit_hit = false ∧
      ((∃ key, token = .key key ∧ found = some key ∧ r'.Sound ∧ r'.mode = r.mode) ∨
        found = none ∧
        (r'.in_paste = true → r'.Sound ∧ r.mode.step token = .inl r'.mode) ∧
        (r'.in_paste = false → r.mode.step token =
          if r'.paste_buf = [] then .inl .outside else .inr (.Paste r'.paste_buf))) := by
  have hdecode := decodeKey_eq hwf
  cases hdecoded : decoded r.bytes with
  | none =>
    rw [hdecoded] at hdecode
    obtain ⟨_, hrun, _⟩ := hdecode
    rw [hrun] at h
    cases h
  | some pair =>
    obtain ⟨token, rest⟩ := pair
    rw [hdecoded] at hdecode
    obtain ⟨r₁, hrun, hmoved⟩ := hdecode
    rw [hrun] at h
    have hlimit₁ : r₁.paste_limit_hit = false := hmoved.paste_limit_hit.trans hlimit
    by_cases hkey : ∃ key, token = .key key
    · obtain ⟨key, rfl⟩ := hkey
      cases h
      exact ⟨_, rest, rfl, hmoved.bytes, hmoved.wf, hlimit₁,
        Or.inl ⟨key, rfl, rfl, hmoved.sound hr, hmoved.mode⟩⟩
    · obtain ⟨r₂, hperform, hbytes, hwf₂, -, -, -, hlimit₂, hinside, houtside⟩ :=
        perform_mode (hmoved.sound hr) hmoved.wf hlimit₁ fun key hsame => hkey ⟨key, hsame⟩
      rw [hperform] at h
      cases h
      rw [hmoved.mode] at hinside houtside
      exact ⟨token, rest, rfl, hbytes.trans hmoved.bytes, hwf₂, hlimit₂,
        Or.inr ⟨rfl, hinside, houtside⟩⟩

theorem Reader.mode_ne_rejected (h : r.paste_limit_hit = false) : r.mode ≠ .rejected := by
  rw [Reader.mode, h]
  cases r.in_paste <;> exact nofun

section Next

variable {mode next : Mode} {event : InputEvent} (hmode : mode ≠ .rejected)
  (hdecoded : decoded bytes = some (token, rest))
include hmode hdecoded

theorem nextEvent_next (hstep : mode.step token = .inl next) :
    nextEvent mode bytes = nextEvent next rest := by
  rw [nextEvent_eq hmode, hdecoded]
  simp only [hstep]

theorem nextEvent_event (hstep : mode.step token = .inr event) :
    nextEvent mode bytes = some (event, rest) := by
  rw [nextEvent_eq hmode, hdecoded]
  simp only [hstep]

end Next

theorem afterBuffered_text (hout : r.in_paste = false)
    (htext : r.paste_buf ≠ []) :
    afterBuffered again r =
      .ok (.Paste r.paste_buf) { r with paste_limit_hit := false, paste_buf := [] } := by
  refine (bind_ok EState.get_run).trans ?_
  rw [if_pos (by simp [hout, htext])]
  rfl

/-- **Behind what is buffered**, events come in order when they do later. -/
theorem inOrder_afterBuffered (h : InOrder again) :
    InOrder (afterBuffered again) := by
  intro r r' event hr hwf hrun
  replace hrun := (bind_ok EState.get_run).symm.trans hrun
  split at hrun
  · next htext =>
      -- outside of a paste there is no text
      simp only [Bool.and_eq_true, Bool.not_eq_true', isEmpty_eq_false_iff] at htext
      exact absurd (hr.outside htext.1).1 htext.2
  split at hrun
  · next hpast =>
      rw [Bool.and_eq_true] at hpast
      obtain ⟨_, r₁, hskip, hrest⟩ := bind_eq_ok.mp hrun
      have hskipped := skipFrom_ok hwf ((bind_ok EState.get_run).symm.trans hskip)
      cases hrest
      rw [Reader.mode_rejected hpast.1 hpast.2, nextEvent_rejected, hskipped.marker]
      have htext : r₁.paste_buf = [] := hskipped.paste_buf.trans (hr.rejected hpast.2)
      exact ⟨rfl, ⟨fun _ => ⟨htext, rfl⟩, fun _ => htext⟩, hskipped.wf⟩
  next hpast =>
    split at hrun
    · cases hrun
    have hlimit : r.paste_limit_hit = false := by
      cases hin : r.in_paste with
      | false => exact (hr.outside hin).2
      | true =>
        rw [hin, Bool.true_and, Bool.not_eq_true] at hpast
        exact hpast
    have hmode := Reader.mode_ne_rejected hlimit
    obtain ⟨found, r₁, hkey, hrest⟩ := bind_eq_ok.mp hrun
    replace hrest := (bind_ok EState.get_run).symm.trans hrest
    obtain ⟨token, rest, hdecoded, hbytes, hwf₁, hlimit₁, hcase⟩ := decodeKey_ok hr hwf hlimit hkey
    rcases hcase with ⟨key, rfl, rfl, hr₁, hmode₁⟩ | ⟨rfl, hinside, houtside⟩
    · dsimp only at hrest
      split at hrest
      · next hin =>
          obtain ⟨r₂, hadd, hbytes₂, hwf₂, hr₂, -, -, -, -, hstep⟩ :=
            accumulate_mode hwf₁ hin hlimit₁ key
          have hagain := h r₂ r' event hr₂ hwf₂ ((bind_ok hadd).symm.trans hrest)
          rw [hmode₁] at hstep
          rw [nextEvent_next hmode hdecoded hstep, ← hbytes, ← hbytes₂]
          exact hagain
      · next hout =>
          rw [Bool.not_eq_true] at hout
          cases hrest
          rw [← hmode₁, Reader.mode_outside hout] at hmode ⊢
          exact ⟨(nextEvent_event hmode hdecoded rfl).trans (by rw [hbytes]), hr₁, hwf₁⟩
    · dsimp only at hrest
      split at hrest
      · next hin =>
          obtain ⟨hr₁, hstep⟩ := hinside hin
          have hagain := h r₁ r' event hr₁ hwf₁ hrest
          rw [nextEvent_next hmode hdecoded hstep, ← hbytes]
          exact hagain
      next hout =>
        rw [Bool.not_eq_true] at hout
        have hstep := houtside hout
        split at hrest
        · next hhit =>
            rw [hlimit₁] at hhit
            cases hhit
        split at hrest
        · next htext =>
            rw [Bool.not_eq_true', isEmpty_eq_false_iff] at htext
            rw [if_neg htext] at hstep
            cases hrest
            exact ⟨(nextEvent_event hmode hdecoded hstep).trans (by rw [← hbytes]; rfl),
              ⟨fun _ => ⟨rfl, hlimit₁⟩, fun _ => rfl⟩, hwf₁⟩
        · next htext =>
            rw [Bool.not_eq_true, Bool.not_eq_false', List.isEmpty_iff] at htext
            rw [if_pos htext, ← Reader.mode_outside hout] at hstep
            have hagain := h r₁ r' event ⟨fun _ => ⟨htext, hlimit₁⟩, fun _ => htext⟩ hwf₁ hrest
            rw [nextEvent_next hmode hdecoded hstep, ← hbytes]
            exact hagain

theorem inOrder_readFrom (rounds : Nat) : InOrder (readFrom rounds) := by
  induction rounds with
  | zero =>
    intro r r' event _ _ hrun
    cases hrun
  | succ rounds ih =>
    intro r r' event hr hwf hrun
    replace hrun := (bind_ok EState.get_run).symm.trans hrun
    split at hrun
    case isFalse => exact inOrder_afterBuffered ih r r' event hr hwf hrun
    next hround =>
      simp only [Bool.and_eq_true, Bool.not_eq_true', Bool.and_eq_false_iff] at hround
      have hlimit : r.paste_limit_hit = false := by
        rcases hround.2 with hout | hlimit
        · exact (hr.outside hout).2
        · exact hlimit
      have hmode := Reader.mode_ne_rejected hlimit
      obtain ⟨found, r₁, hkey, hrest⟩ := bind_eq_ok.mp hrun
      replace hrest := (bind_ok EState.get_run).symm.trans hrest
      obtain ⟨token, rest, hdecoded, hbytes, hwf₁, hlimit₁, hcase⟩ :=
        decodeKey_ok hr hwf hlimit hkey
      rcases hcase with ⟨key, rfl, rfl, hr₁, hmode₁⟩ | ⟨rfl, hinside, houtside⟩
      · dsimp only at hrest
        split at hrest
        · next hin =>
            obtain ⟨r₂, hadd, hbytes₂, hwf₂, hr₂, -, -, -, -, hstep⟩ :=
              accumulate_mode hwf₁ hin hlimit₁ key
            replace hrest := (bind_ok hadd).symm.trans hrest
            replace hrest := (bind_ok EState.get_run).symm.trans hrest
            rw [hmode₁] at hstep
            rw [nextEvent_next hmode hdecoded hstep, ← hbytes, ← hbytes₂]
            split at hrest
            · exact inOrder_afterBuffered ih r₂ r' event hr₂ hwf₂ hrest
            · exact ih r₂ r' event hr₂ hwf₂ hrest
        · next hout =>
            rw [Bool.not_eq_true] at hout
            cases hrest
            rw [← hmode₁, Reader.mode_outside hout] at hmode ⊢
            exact ⟨(nextEvent_event hmode hdecoded rfl).trans (by rw [hbytes]), hr₁, hwf₁⟩
      · dsimp only at hrest
        split at hrest
        · next hin =>
            obtain ⟨hr₁, hstep⟩ := hinside hin
            rw [nextEvent_next hmode hdecoded hstep, ← hbytes]
            exact ih r₁ r' event hr₁ hwf₁ hrest
        · next hout =>
            rw [Bool.not_eq_true] at hout
            have hstep := houtside hout
            by_cases htext : r₁.paste_buf = []
            · rw [if_pos htext, ← Reader.mode_outside hout] at hstep
              rw [nextEvent_next hmode hdecoded hstep, ← hbytes]
              exact inOrder_afterBuffered ih r₁ r' event
                ⟨fun _ => ⟨htext, hlimit₁⟩, fun _ => htext⟩ hwf₁ hrest
            · -- the end of a paste with a text
              rw [if_neg htext] at hstep
              rw [afterBuffered_text hout htext] at hrest
              cases hrest
              exact ⟨(nextEvent_event hmode hdecoded hstep).trans (by rw [← hbytes]; rfl),
                ⟨fun _ => ⟨rfl, rfl⟩, fun _ => rfl⟩, hwf₁⟩

end Ish.Input
