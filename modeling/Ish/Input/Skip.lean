import Ish.Input.Tokens
import Mathlib.Data.List.TakeWhile

/-!
# The rest of a rejected paste

`skip_paste_remainder` drops everything up to the first end marker and the
marker itself, however the bytes are split over reads.
-/

namespace Ish.Input

open Ish.Lib List
open EState (bind_ok bind_error)

/-- What follows the first end marker. -/
def afterMarker : List UInt8 → Option (List UInt8)
  | [] => none
  | byte :: bytes =>
    if PASTE_END.isPrefixOf (byte :: bytes) then some ((byte :: bytes).drop PASTE_END.length)
    else afterMarker bytes

variable {r : Reader} {bytes more : List UInt8}

/-! ## Markers in byte strings -/

theorem afterMarker_marker (more : List UInt8) : afterMarker (PASTE_END ++ more) = some more := by
  have hfirst : PASTE_END ++ more = ESC :: (PASTE_END.tail ++ more) := rfl
  have hprefixed : PASTE_END.isPrefixOf (ESC :: (PASTE_END.tail ++ more)) = true :=
    List.isPrefixOf_iff_prefix.mpr ⟨more, rfl⟩
  rw [hfirst, afterMarker, if_pos hprefixed]
  rfl

theorem afterMarker_cons {byte} (h : ¬ PASTE_END <+: byte :: bytes) :
    afterMarker (byte :: bytes) = afterMarker bytes := by
  rw [afterMarker, if_neg fun hprefixed => h (List.isPrefixOf_iff_prefix.mp hprefixed)]

theorem not_marker {byte} (h : byte ≠ ESC) : ¬ PASTE_END <+: byte :: bytes := by
  rintro ⟨rest, heq⟩
  exact h (List.cons.inj heq).1.symm

theorem afterMarker_append (h : ESC ∉ bytes) : afterMarker (bytes ++ more) = afterMarker more := by
  induction bytes with
  | nil => rfl
  | cons byte bytes ih =>
    have hne : byte ≠ ESC := fun heq => h (by simp [heq])
    rw [cons_append, afterMarker_cons (not_marker hne),
      ih fun hmem => h (mem_cons_of_mem _ hmem)]

theorem afterMarker_short (h : bytes.length < PASTE_END.length) : afterMarker bytes = none := by
  induction bytes with
  | nil => rfl
  | cons byte bytes ih =>
    rw [afterMarker_cons fun hmarker => absurd hmarker.length_le (Nat.not_le.mpr h)]
    exact ih (Nat.lt_of_succ_lt h)

theorem afterMarker_no_escape (h : ESC ∉ bytes) : afterMarker bytes = none := by
  rw [← append_nil bytes, afterMarker_append h]
  rfl

theorem not_marker_straddles {text} (hne : text ≠ []) (h : ¬ PASTE_END <:+: text)
    (more : List UInt8) : ¬ PASTE_END <+: text ++ (PASTE_END ++ more) := by
  intro hmarker
  by_cases hlong : PASTE_END.length ≤ text.length
  · exact h (prefix_of_prefix_length_le hmarker (prefix_append _ _) hlong).isInfix
  · -- the marker would have an escape inside
    have hlt : text.length < PASTE_END.length := Nat.lt_of_not_le hlong
    have hpos : 0 < text.length := length_pos_iff.mpr hne
    have hinside : PASTE_END[text.length] = ESC := by
      obtain ⟨rest, heq⟩ := hmarker
      have hget : (PASTE_END ++ rest)[text.length]? =
          (text ++ (PASTE_END ++ more))[text.length]? := by rw [heq]
      rw [getElem?_append_left hlt, getElem?_append_right (Nat.le_refl _),
        Nat.sub_self, getElem?_eq_getElem hlt] at hget
      exact Option.some.inj hget
    have honly : ∀ i (hi : i < PASTE_END.length), 0 < i → PASTE_END[i] ≠ ESC := by decide
    exact honly text.length hlt hpos hinside

/-- **The first marker** behind a text without one is the one that follows it. -/
theorem afterMarker_text {text} (h : ¬ PASTE_END <:+: text) (more : List UInt8) :
    afterMarker (text ++ (PASTE_END ++ more)) = some more := by
  induction text with
  | nil => exact afterMarker_marker more
  | cons byte text ih =>
    have hstraddles := not_marker_straddles (cons_ne_nil byte text) h more
    refine (afterMarker_cons hstraddles).trans ?_
    exact ih fun hinside => h (hinside.trans (suffix_cons byte text).isInfix)

/-! ## The scanner -/

/-- What `skip_paste_remainder` does: it stops behind the first marker, or waits
for one. -/
def Skips (r : Reader) (result : EStateM.Result Stop Reader Unit) : Prop :=
  match afterMarker r.bytes with
  | some rest => ∃ r', result = .ok () r' ∧ r'.bytes = rest ∧ r'.Wf ∧ r'.pending = [] ∧
      r'.in_paste = false ∧ r'.paste_buf = r.paste_buf ∧ r'.paste_limit_hit = r.paste_limit_hit
  | none => ∃ r', result = .error .waiting r'

theorem Skips.of_same {r r' result}
    (h : Skips r' result) (hmarker : afterMarker r'.bytes = afterMarker r.bytes)
    (hbuf : r'.paste_buf = r.paste_buf) (hlimit : r'.paste_limit_hit = r.paste_limit_hit) :
    Skips r result := by
  rw [Skips, hmarker, hbuf, hlimit] at h
  exact h

theorem shiftPending_empty (h : r.pending = []) : shiftPendingIntoBuf r = .ok false r := by
  rw [shiftPendingIntoBuf, h]
  rfl

theorem fromEscape_split (bytes : List UInt8) :
    ∃ before, bytes = before ++ fromEscape bytes ∧ ESC ∉ before := by
  refine ⟨bytes.takeWhile (· ≠ ESC), takeWhile_append_dropWhile.symm, fun hmem => ?_⟩
  have hne := mem_takeWhile_imp hmem
  simp at hne

theorem fromEscape_head (bytes : List UInt8) :
    fromEscape bytes = [] ∨ ∃ rest, fromEscape bytes = ESC :: rest := by
  cases h : fromEscape bytes with
  | nil => exact .inl rfl
  | cons byte rest =>
    have hne : fromEscape bytes ≠ [] := by simp [h]
    have hhead := head_dropWhile_not (· ≠ ESC) hne
    have hfirst : (bytes.dropWhile (· ≠ ESC)).head hne = byte := by
      simp only [fromEscape] at h
      simp only [h, head_cons]
    rw [hfirst] at hhead
    exact .inr ⟨rest, by simpa using hhead⟩

/-- One round of the scan: what it finds in the buffer and what it goes on with. -/
inductive SkipRound (rounds : Nat) (r : Reader) : Prop where
  | refill (hrest : r.rest = [])
      (hrun : skipFrom (rounds + 1) r = (shiftPendingIntoBuf >>= fun shifted =>
        if shifted then skipFrom rounds else fillBuf >>= fun _ => skipFrom rounds) r)
  | plain (hne : r.rest ≠ []) (hescape : ESC ∉ r.rest)
      (hrun : skipFrom (rounds + 1) r = skipFrom rounds { r with buf_pos := r.buf.length })
  | marker {before tail : List UInt8} {pos : Nat} (hbefore : ESC ∉ before)
      (hrest : r.rest = before ++ (PASTE_END ++ tail)) (hpos : r.buf.drop pos = tail)
      (hrun : skipFrom (rounds + 1) r = .ok () { r with buf_pos := pos, in_paste := false })
  | short {before after : List UInt8} (hbefore : ESC ∉ before) (hrest : r.rest = before ++ after)
      (hescape : ESC ∈ after) (hlength : after.length < PASTE_END.length)
      (hrun : skipFrom (rounds + 1) r =
        (if r.unread.isEmpty then throw Stop.waiting
        else do
          let shifted ← shiftPendingIntoBuf
          if shifted then skipFrom rounds
          else do
            let bytes ← readTerminal (READ_BUF_SIZE - after.length)
            modify fun r => { r with buf := r.buf ++ bytes }
            skipFrom rounds : Reading Unit) { r with buf := after, buf_pos := 0 })
  | other {before tail : List UInt8} {pos : Nat} (hbefore : ESC ∉ before)
      (hrest : r.rest = before ++ ESC :: tail) (hlength : 5 ≤ tail.length)
      (hother : ∀ more, ¬ PASTE_END <+: ESC :: (tail ++ more)) (hpos : r.buf.drop pos = tail)
      (hrun : skipFrom (rounds + 1) r = skipFrom rounds { r with buf_pos := pos })

theorem skipFrom_round (rounds : Nat) (r : Reader) : SkipRound rounds r := by
  by_cases hempty : r.rest.isEmpty
  · exact .refill (List.isEmpty_iff.mp hempty)
      ((bind_ok EState.get_run).trans (congrFun (if_pos hempty) r))
  obtain ⟨before, hsplit, hbefore⟩ := fromEscape_split r.rest
  have hpos (count : Nat) :
      r.buf.drop (r.buf_pos + (r.rest.length - (fromEscape r.rest).length) + count) =
        (fromEscape r.rest).drop count := by
    have hlength : r.rest.length - (fromEscape r.rest).length = before.length := by
      have h := congrArg List.length hsplit
      rw [length_append] at h
      omega
    rw [hlength, ← drop_drop, ← drop_drop, ← Reader.rest]
    exact congrArg (List.drop count) ((congrArg _ hsplit).trans (drop_left' rfl))
  have hopen : skipFrom (rounds + 1) r = _ :=
    (bind_ok EState.get_run).trans (congrFun (if_neg hempty) r)
  by_cases hnone : (fromEscape r.rest).isEmpty
  · simp only [if_pos hnone] at hopen
    refine .plain (fun h => hempty (by simp [h])) ?_ hopen
    rwa [hsplit, List.isEmpty_iff.mp hnone, append_nil]
  obtain ⟨tail, htail⟩ : ∃ tail, fromEscape r.rest = ESC :: tail := by
    rcases fromEscape_head r.rest with h | h
    · exact absurd (List.isEmpty_iff.mpr h) hnone
    · exact h
  by_cases hfound : PASTE_END.length ≤ (fromEscape r.rest).length &&
      (fromEscape r.rest).take PASTE_END.length = PASTE_END
  · have htake := of_decide_eq_true (Bool.and_eq_true_iff.mp hfound).2
    have hparts := take_append_drop PASTE_END.length (fromEscape r.rest)
    rw [htake] at hparts
    simp only [if_neg hnone, if_pos hfound] at hopen
    exact .marker hbefore (by rw [hparts]; exact hsplit) (hpos _) hopen
  by_cases hpartial : (fromEscape r.rest).length < PASTE_END.length
  · simp only [if_neg hnone, if_neg hfound, if_pos hpartial] at hopen
    exact .short hbefore hsplit (by simp [htail]) hpartial hopen
  · have hlong : PASTE_END.length ≤ (fromEscape r.rest).length := Nat.le_of_not_lt hpartial
    simp only [if_neg hnone, if_neg hfound, if_neg hpartial] at hopen
    refine .other hbefore (htail ▸ hsplit) ?_ (fun more hmarker => ?_) ((hpos 1).trans ?_) hopen
    · rw [htail] at hlong
      exact Nat.le_of_succ_le_succ hlong
    · rw [← cons_append, ← htail] at hmarker
      have hprefixed := prefix_of_prefix_length_le hmarker
        (prefix_append (fromEscape r.rest) _) hlong
      exact hfound (Bool.and_eq_true_iff.mpr
        ⟨decide_eq_true hlong, decide_eq_true (prefix_iff_eq_take.mp hprefixed).symm⟩)
    · rw [htail]
      rfl

theorem skipFrom_run {rounds} (hwf : r.Wf) (hpending : r.pending = [])
    (hrounds : r.rest.length + 2 * r.unread.flatten.length < rounds) :
    Skips r (skipFrom rounds r) := by
  induction rounds generalizing r with
  | zero => exact absurd hrounds (Nat.not_lt_zero _)
  | succ rounds ih =>
    have hbytes : r.bytes = r.rest ++ r.unread.flatten := by
      rw [Reader.bytes, hpending, nil_append]
    cases skipFrom_round rounds r with
    | refill hrest hrun =>
      rw [hrest, nil_append] at hbytes
      rw [hrun, bind_ok (shiftPending_empty hpending), if_neg Bool.false_ne_true]
      by_cases hunread : r.unread = []
      · have hnone : afterMarker r.bytes = none := by
          rw [hbytes, hunread]
          rfl
        have hwait : readTerminal READ_BUF_SIZE r = .error .waiting r := by
          rw [readTerminal, hunread]
        rw [Skips, hnone]
        exact ⟨r, bind_error (bind_error hwait)⟩
      · obtain ⟨chunk, left, hread, hchunk, hflatten, hleft⟩ :=
          readTerminal_run hwf (show 0 < READ_BUF_SIZE by decide) hunread
        have hfill : fillBuf r = .ok () { r with buf := chunk, buf_pos := 0, unread := left } :=
          bind_ok hread
        have hpos : 0 < chunk.length := length_pos_iff.mpr hchunk
        have hskips := ih (r := { r with buf := chunk, buf_pos := 0, unread := left }) hleft
          hpending (by
            rw [hflatten, length_append] at hrounds
            show chunk.length + 2 * left.flatten.length < rounds
            omega)
        rw [bind_ok hfill]
        refine hskips.of_same ?_ rfl rfl
        rw [hbytes, hflatten, Reader.bytes, hpending]
        rfl
    | plain hne hescape hrun =>
      have hsome : 0 < r.rest.length := length_pos_iff.mpr hne
      have hskips := ih (r := { r with buf_pos := r.buf.length }) hwf hpending (by
        show (r.buf.drop r.buf.length).length + 2 * r.unread.flatten.length < rounds
        rw [drop_length, length_nil]
        omega)
      rw [hrun]
      refine hskips.of_same ?_ rfl rfl
      rw [hbytes, afterMarker_append hescape, Reader.bytes, Reader.rest, hpending,
        drop_length]
      rfl
    | marker hbefore hrest hpos hrun =>
      rw [Skips, hbytes, hrest, append_assoc, afterMarker_append hbefore, append_assoc,
        afterMarker_marker]
      refine ⟨_, hrun, ?_, hwf, hpending, rfl, rfl, rfl⟩
      rw [Reader.bytes, Reader.rest, hpending]
      exact congrArg (· ++ _) hpos
    | @short before after hbefore hrest _ hlength hrun =>
      rw [hrun]
      by_cases hunread : r.unread.isEmpty
      · have hnothing : afterMarker r.bytes = none := by
          rw [hbytes, hrest, append_assoc, afterMarker_append hbefore,
            List.isEmpty_iff.mp hunread, flatten_nil, append_nil]
          exact afterMarker_short hlength
        rw [if_pos hunread, Skips, hnothing]
        exact ⟨_, rfl⟩
      · let kept : Reader := { r with buf := after, buf_pos := 0 }
        have hspace : 0 < READ_BUF_SIZE - after.length := by
          have hshort : after.length < 6 := hlength
          rw [READ_BUF_SIZE]
          omega
        obtain ⟨chunk, left, hread, hchunk, hflatten, hleft⟩ :=
          readTerminal_run (r := kept) hwf hspace fun h => hunread (List.isEmpty_iff.mpr h)
        have hpos : 0 < chunk.length := length_pos_iff.mpr hchunk
        have hflatten : r.unread.flatten = chunk ++ left.flatten := hflatten
        have hskips := ih (r := { kept with buf := kept.buf ++ chunk, unread := left }) hleft
          hpending (by
            rw [hflatten, hrest, length_append, length_append] at hrounds
            show (after ++ chunk).length + 2 * left.flatten.length < rounds
            rw [length_append]
            omega)
        rw [if_neg hunread, bind_ok (shiftPending_empty (r := kept) hpending),
          if_neg Bool.false_ne_true, bind_ok hread]
        refine hskips.of_same ?_ rfl rfl
        rw [hbytes, hrest, append_assoc, afterMarker_append hbefore, hflatten,
          ← append_assoc, Reader.bytes]
        show afterMarker ((after ++ chunk) ++ (r.pending ++ left.flatten)) = _
        rw [hpending, nil_append]
    | @other before tail pos hbefore hrest _ hother hpos hrun =>
      have hskips := ih (r := { r with buf_pos := pos }) hwf hpending (by
        show (r.buf.drop pos).length + 2 * r.unread.flatten.length < rounds
        rw [hrest, length_append, length_cons] at hrounds
        rw [hpos]
        omega)
      rw [hrun]
      refine hskips.of_same ?_ rfl rfl
      have hleft : Reader.bytes { r with buf_pos := pos } = tail ++ r.unread.flatten := by
        show r.buf.drop _ ++ (r.pending ++ r.unread.flatten) = _
        rw [hpos, hpending, nil_append]
      rw [hleft, hbytes, hrest, append_assoc, afterMarker_append hbefore, cons_append,
        afterMarker_cons (hother _)]

theorem skipPasteRemainder_run (hwf : r.Wf) (hpending : r.pending = []) :
    Skips r (skipPasteRemainder r) := by
  have hrun : skipPasteRemainder r = skipFrom (2 * r.bytes.length + 1) r := bind_ok EState.get_run
  rw [hrun]
  apply skipFrom_run hwf hpending
  rw [Reader.bytes, hpending, nil_append, length_append]
  omega

end Ish.Input
