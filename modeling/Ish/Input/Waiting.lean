import Ish.Input.Order

/-!
# Waiting for the terminal

What `read_event` does with the bytes it has while the terminal is silent: it
should wait only when no event can be made of them. The buffer is used up before
the pending bytes, and `skip_paste_remainder` takes these in pieces.
-/

namespace Ish.Input

open Ish.Lib List
open EState (Keeps after bind_ok bind_error bind_eq_ok)

variable {r r' : Reader} {left : List UInt8}

/-! ## Decoding without the terminal -/

/-- Bytes are taken from the buffer, and from the pending ones when it is used
up. -/
structure Popped (r r' : Reader) : Prop where
  unread : r.unread = [] → r'.unread = []
  rest : r.unread = [] → r'.rest <:+ r.rest
  pending : r.unread = [] → r'.pending <:+ r.pending
  first : r.unread = [] → r'.rest ≠ [] → r'.pending = r.pending

theorem Popped.refl (r : Reader) : Popped r r :=
  ⟨id, fun _ => suffix_refl _, fun _ => suffix_refl _, fun _ _ => rfl⟩

theorem Popped.trans (h : Popped r r') (h' : Popped r' r'') : Popped r r'' where
  unread := fun hsilent => h'.unread (h.unread hsilent)
  rest := fun hsilent => (h'.rest (h.unread hsilent)).trans (h.rest hsilent)
  pending := fun hsilent => (h'.pending (h.unread hsilent)).trans (h.pending hsilent)
  first := by
    intro hsilent hne
    have hsuffix := h'.rest (h.unread hsilent)
    have hne' : r'.rest ≠ [] := by
      intro hnil
      rw [hnil, suffix_nil] at hsuffix
      exact hne hsuffix
    exact (h'.first (h.unread hsilent) hne).trans (h.first hsilent hne')

instance : IsPreorder Reader Popped where
  refl := Popped.refl
  trans _ _ _ := Popped.trans

/-- Nothing but the state of a paste is changed. -/
theorem Popped.of_same (hrest : r'.rest = r.rest) (hpending : r'.pending = r.pending)
    (hunread : r'.unread = r.unread) : Popped r r' where
  unread := fun hsilent => hunread.trans hsilent
  rest := fun _ => hrest ▸ suffix_refl _
  pending := fun _ => hpending ▸ suffix_refl _
  first := fun _ _ => hpending

theorem bufferedByte_popped : Keeps Popped bufferedByte := by
  intro r
  refine ⟨id, fun _ => ?_, fun _ => suffix_refl _, fun _ _ => rfl⟩
  show r.buf.drop (r.buf_pos + 1) <:+ r.buf.drop r.buf_pos
  rw [← drop_drop]
  exact drop_suffix 1 _

theorem readByte_popped : Keeps Popped readByte := by
  intro r
  have hopen : readByte r = _ := bind_ok EState.get_run
  rw [hopen]
  by_cases hempty : r.rest.isEmpty
  · simp only [if_pos hempty]
    cases hpending : r.pending with
    | cons byte pending =>
      -- the buffer is used up
      have hnil := List.isEmpty_iff.mp hempty
      refine ⟨id, fun _ => suffix_refl _, fun _ => ?_, fun _ hne => absurd hnil hne⟩
      rw [hpending]
      exact suffix_cons byte pending
    | nil =>
      cases hunread : r.unread with
      | nil =>
        have hwait : readTerminal READ_BUF_SIZE r = .error .waiting r := by
          rw [readTerminal, hunread]
        have hfill : fillBuf r = .error .waiting r := bind_error hwait
        dsimp only
        rw [bind_error hfill]
        exact Popped.refl r
      | cons chunk more =>
        have hne : r.unread ≠ [] := by simp [hunread]
        exact ⟨fun h => absurd h hne, fun h => absurd h hne, fun h => absurd h hne,
          fun h => absurd h hne⟩
  · simp only [if_neg hempty]
    exact bufferedByte_popped r

theorem readByteTimeout_popped : Keeps Popped readByteTimeout := by
  refine .bind .get fun r => ?_
  split
  · exact .bind readByte_popped fun _ => .pure _
  · exact .pure _

theorem perform_popped (token : Token) : Keeps Popped (perform token) := by
  cases token with
  | key key => exact .pure _
  | nothing => exact .pure _
  | pasteStart | pasteEnd => exact .bind (.modify fun _ => .of_same rfl rfl rfl) fun _ => .pure _

theorem csiFrom_popped (rounds : Nat) (p : Params) : Keeps Popped (csiFrom rounds p) := by
  induction rounds generalizing p with
  | zero => exact .throw _
  | succ rounds ih =>
    refine .bind readByteTimeout_popped fun byte => ?_
    cases byte with
    | none => exact .pure _
    | some byte =>
      dsimp only
      split
      · exact ih _
      · exact perform_popped _

theorem utf8From_popped (count cp : Nat) : Keeps Popped (utf8From count cp) := by
  induction count generalizing cp with
  | zero => exact perform_popped _
  | succ count ih =>
    refine .bind readByte_popped fun byte => ?_
    split
    · exact .pure _
    · exact ih _

theorem decodeEscape_popped : Keeps Popped decodeEscape := by
  refine .bind readByteTimeout_popped fun byte => ?_
  cases byte with
  | none => exact .pure _
  | some byte =>
    dsimp only
    split_ifs
    · exact .bind .get fun _ => csiFrom_popped _ _
    · refine .bind readByteTimeout_popped fun byte => ?_
      cases byte with
      | none => exact .pure _
      | some byte => exact perform_popped _
    · exact perform_popped _

theorem decodeKey_popped : Keeps Popped decodeKey := by
  refine .bind readByte_popped fun byte => ?_
  split_ifs
  · exact decodeEscape_popped
  · exact perform_popped _
  · rw [decodeUtf8]
    split
    · exact .pure _
    · exact utf8From_popped _ _

/-- What is left of the buffer, when `left` is left of it and of `pending` further
bytes. -/
def ofBuffer (pending : Nat) (left : List UInt8) : List UInt8 :=
  left.take (left.length - pending)

def ofPending (pending : Nat) (left : List UInt8) : List UInt8 :=
  left.drop (left.length - pending)

theorem Popped.split (h : Popped r r') (hsilent : r.unread = [])
    (hleft : r'.rest ++ r'.pending = left) :
    r'.rest = ofBuffer r.pending.length left ∧ r'.pending = ofPending r.pending.length left := by
  rw [ofBuffer, ofPending, ← hleft, length_append]
  by_cases hrest : r'.rest = []
  · have hle := (h.pending hsilent).length_le
    rw [hrest, nil_append, length_nil, Nat.zero_add, Nat.sub_eq_zero_of_le hle]
    exact ⟨rfl, rfl⟩
  · rw [h.first hsilent hrest, Nat.add_sub_cancel]
    exact ⟨(take_left' rfl).symm, (drop_left' rfl).symm⟩

theorem Reader.bytes_silent (hsilent : r.unread = []) : r.bytes = r.rest ++ r.pending := by
  rw [Reader.bytes, hsilent, flatten_nil, append_nil]

theorem Reader.wf_silent (hsilent : r.unread = []) : r.Wf := by
  rw [Reader.Wf, hsilent]
  rintro chunk ⟨⟩

/-- A state that has `left` to decode, of the buffer and the pending bytes of `r`. -/
structure Left (r : Reader) (left : List UInt8) (r' : Reader) : Prop where
  unread : r'.unread = []
  rest : r'.rest = ofBuffer r.pending.length left
  pending : r'.pending = ofPending r.pending.length left

theorem Left.bytes (h : Left r left r') : r'.bytes = left := by
  rw [Reader.bytes_silent h.unread, h.rest, h.pending]
  exact take_append_drop _ _

theorem Left.of_same (h : Left r left r') (hrest : r''.rest = r'.rest)
    (hpending : r''.pending = r'.pending) (hunread : r''.unread = r'.unread) : Left r left r'' :=
  ⟨hunread.trans h.unread, hrest.trans h.rest, hpending.trans h.pending⟩

/-- **Decoding without the terminal**: the first sequence of what is buffered is
performed, or everything is taken and the rest of it waited for. -/
theorem decodeKey_silent (hsilent : r.unread = []) :
    match decoded (r.rest ++ r.pending) with
    | some (token, left) =>
      ∃ r', decodeKey r = perform token r' ∧ Moved r r' left ∧ Left r left r'
    | none => ∃ r', decodeKey r = .error .waiting r' ∧ r'.rest = [] ∧ r'.pending = [] := by
  have hdecode := decodeKey_eq (r.wf_silent hsilent)
  rw [Reader.bytes_silent hsilent] at hdecode
  have hpopped := decodeKey_popped r
  cases hdecoded : decoded (r.rest ++ r.pending) with
  | none =>
    rw [hdecoded] at hdecode
    obtain ⟨r', hrun, hmoved⟩ := hdecode
    have hnil := r'.bytes_eq_nil hmoved.wf hmoved.bytes
    exact ⟨r', hrun, hnil.1, hnil.2.1⟩
  | some pair =>
    obtain ⟨token, left⟩ := pair
    rw [hdecoded] at hdecode
    obtain ⟨r', hrun, hmoved⟩ := hdecode
    refine ⟨r', hrun, hmoved, ?_⟩
    rw [hrun] at hpopped
    have hafter : (after (perform token r')).rest = r'.rest ∧
        (after (perform token r')).pending = r'.pending ∧
          (after (perform token r')).unread = r'.unread := by
      cases token <;> exact ⟨rfl, rfl, rfl⟩
    have hpopped' : Popped r r' :=
      hpopped.trans (.of_same hafter.1.symm hafter.2.1.symm hafter.2.2.symm)
    have hunread := hpopped'.unread hsilent
    have hbytes := hmoved.bytes
    rw [Reader.bytes_silent hunread] at hbytes
    obtain ⟨hrest, hpending⟩ := hpopped'.split hsilent hbytes
    exact ⟨hunread, hrest, hpending⟩

/-! ## Dropping a rejected paste without the terminal -/

/-- The pending bytes are taken in pieces: every piece up to the one with the end
marker ends in no escape that could begin a marker. -/
inductive Clear : List UInt8 → List UInt8 → Prop where
  | last (piece : List UInt8) : Clear piece []
  | marker {piece pending : List UInt8} (h : (afterMarker piece).isSome) : Clear piece pending
  | next {piece pending : List UInt8} (hescape : ESC ∉ piece.drop (piece.length - 5))
      (h : Clear (pending.take READ_BUF_SIZE) (pending.drop READ_BUF_SIZE)) : Clear piece pending

/-- A wait with nothing to decode: at most a piece of the end marker of a paste
that is dropped is kept. -/
structure Idle (r : Reader) : Prop where
  pending : r.pending = []
  rest : r.rest = [] ∨
    r.in_paste = true ∧ r.paste_limit_hit = true ∧ r.rest.length < PASTE_END.length

theorem clear_iff {piece pending} :
    Clear piece pending ↔
      pending = [] ∨ (afterMarker piece).isSome ∨ ESC ∉ piece.drop (piece.length - 5) ∧
        Clear (pending.take READ_BUF_SIZE) (pending.drop READ_BUF_SIZE) := by
  constructor
  · intro h
    cases h with
    | last => exact Or.inl rfl
    | marker h => exact Or.inr (Or.inl h)
    | next hescape h => exact Or.inr (Or.inr ⟨hescape, h⟩)
  · rintro (rfl | h | ⟨hescape, h⟩)
    · exact .last piece
    · exact .marker h
    · exact .next hescape h

theorem clear_congr
    (hmarker : (afterMarker piece).isSome = (afterMarker piece').isSome)
    (hescape : ESC ∈ piece.drop (piece.length - 5) ↔ ESC ∈ piece'.drop (piece'.length - 5)) :
    Clear piece pending ↔ Clear piece' pending := by
  rw [clear_iff, @clear_iff piece', hmarker, hescape]

theorem drop_append_last {before piece : List UInt8} (h : 5 ≤ piece.length) :
    (before ++ piece).drop ((before ++ piece).length - 5) = piece.drop (piece.length - 5) := by
  rw [length_append, show before.length + piece.length - 5 =
    before.length + (piece.length - 5) by omega, ← drop_drop, drop_left' rfl]

theorem mem_last (before : List UInt8)
    (h : piece.length ≤ 5) (hmem : byte ∈ piece) :
    byte ∈ (before ++ piece).drop ((before ++ piece).length - 5) := by
  rw [length_append, drop_append]
  refine mem_append_right _ ?_
  rw [Nat.sub_eq_zero_of_le (by omega)]
  exact hmem

/-- What `skip_paste_remainder` does without the terminal: it finds the marker in
a piece, or waits with what is left of one. -/
def Pauses (r : Reader) : EStateM.Result Stop Reader Unit → Prop
  | .ok _ _ => Clear r.rest r.pending
  | .error .waiting r' =>
    (Clear r.rest r.pending ↔ r'.pending = []) ∧ r'.in_paste = r.in_paste ∧
      r'.paste_limit_hit = r.paste_limit_hit ∧ r'.rest.length < PASTE_END.length ∧
      (r'.pending = [] → afterMarker r.bytes = none)
  | .error .exhausted _ => False

theorem Pauses.of_same
    (h : Pauses s result) (hclear : Clear r.rest r.pending ↔ Clear s.rest s.pending)
    (hmarker : afterMarker s.bytes = afterMarker r.bytes) (hin : s.in_paste = r.in_paste)
    (hlimit : s.paste_limit_hit = r.paste_limit_hit) : Pauses r result := by
  match result with
  | .ok _ _ => exact hclear.mpr h
  | .error .waiting r' =>
    obtain ⟨hpending, hin', hlimit', hrest, hnone⟩ := h
    exact ⟨hclear.trans hpending, hin'.trans hin, hlimit'.trans hlimit, hrest,
      fun hnil => hmarker ▸ hnone hnil⟩
  | .error .exhausted _ => exact h

theorem skipFrom_silent {rounds : Nat} (hsilent : r.unread = [])
    (hrounds : r.rest.length + 2 * r.pending.length < rounds) : Pauses r (skipFrom rounds r) := by
  have hbytes : r.bytes = r.rest ++ r.pending := Reader.bytes_silent hsilent
  induction rounds generalizing r with
  | zero => exact absurd hrounds (Nat.not_lt_zero _)
  | succ rounds ih =>
    cases skipFrom_round rounds r with
    | refill hrest hrun =>
      rw [hrun]
      by_cases hpending : r.pending = []
      · -- nothing is left
        have hwait : readTerminal READ_BUF_SIZE r = .error .waiting r := by
          rw [readTerminal, hsilent]
        have hfill : (fillBuf >>= fun _ => skipFrom rounds) r = .error .waiting r :=
          bind_error (bind_error hwait)
        rw [bind_ok (shiftPending_empty hpending)]
        simp only [Bool.false_eq_true, if_false]
        rw [hfill, Pauses, hpending, hrest]
        refine ⟨⟨fun _ => rfl, fun _ => .last []⟩, rfl, rfl, by decide, fun _ => ?_⟩
        rw [hbytes, hrest, hpending]
        rfl
      · -- the next piece
        have hshift : shiftPendingIntoBuf r = .ok true { r with
            buf := r.pending.take READ_BUF_SIZE, buf_pos := 0
            pending := r.pending.drop READ_BUF_SIZE } := by
          have htake : r.pending.take READ_BUF_SIZE ≠ [] := by
            simpa [READ_BUF_SIZE] using hpending
          rw [shiftPendingIntoBuf, if_neg (by simpa using hpending), if_neg (by simp [hrest])]
          simp only [hrest, isEmpty_nil, if_true, nil_append, length_nil,
            Nat.sub_zero]
          rw [show (!(r.pending.take READ_BUF_SIZE).isEmpty) = true by simpa using htake]
        have hlength := length_pos_iff.mpr hpending
        rw [bind_ok hshift]
        simp only [if_true]
        refine (@ih { r with
          buf := r.pending.take READ_BUF_SIZE, buf_pos := 0
          pending := r.pending.drop READ_BUF_SIZE } hsilent ?_
            (Reader.bytes_silent hsilent)).of_same ?_ ?_ rfl rfl
        · show (r.pending.take READ_BUF_SIZE).length +
            2 * (r.pending.drop READ_BUF_SIZE).length < rounds
          rw [length_take, length_drop, READ_BUF_SIZE]
          omega
        · rw [hrest, clear_iff]
          simp [hpending, afterMarker, Reader.rest]
        · rw [hbytes, hrest, Reader.bytes_silent]
          · rw [Reader.rest, drop_zero, take_append_drop, nil_append]
          · exact hsilent
    | plain hne hescape hrun =>
      have hused : Reader.rest { r with buf_pos := r.buf.length } = [] := drop_length
      have hsome : 0 < r.rest.length := length_pos_iff.mpr hne
      rw [hrun]
      refine (@ih { r with buf_pos := r.buf.length } hsilent ?_
        (Reader.bytes_silent hsilent)).of_same ?_ ?_ rfl rfl
      · rw [hused]
        show 0 + 2 * r.pending.length < rounds
        omega
      · rw [hused]
        refine clear_congr (by rw [afterMarker_no_escape hescape]; rfl) ?_
        exact iff_of_false (fun hmem => hescape (mem_of_mem_drop hmem)) (by rintro ⟨⟩)
      · rw [hbytes, afterMarker_append hescape, Reader.bytes_silent]
        · rw [hused]
          rfl
        · exact hsilent
    | marker hbefore hrest _ hrun =>
      rw [hrun]
      refine Clear.marker ?_
      rw [hrest, afterMarker_append hbefore, afterMarker_marker]
      rfl
    | @short before after hbefore hrest hescape hlength hrun =>
      have hsix : PASTE_END.length = 6 := rfl
      have hnothing : afterMarker r.rest = none := by
        rw [hrest, afterMarker_append hbefore]
        exact afterMarker_short hlength
      have hlast : ESC ∈ r.rest.drop (r.rest.length - 5) := by
        rw [hrest]
        exact mem_last before (by omega) hescape
      rw [hrun, if_pos (List.isEmpty_iff.mpr hsilent)]
      refine ⟨?_, rfl, rfl, hlength, fun hnil => ?_⟩
      · rw [clear_iff, hnothing]
        simp [hlast]
      · have hnil : r.pending = [] := hnil
        rw [hbytes, hnil, append_nil, hnothing]
    | @other before tail pos hbefore hrest hlength hother hpos hrun =>
      have hskip : ∀ more, afterMarker (r.rest ++ more) = afterMarker (tail ++ more) := by
        intro more
        rw [hrest, append_assoc, afterMarker_append hbefore, cons_append,
          afterMarker_cons (hother more)]
      have hused : Reader.rest { r with buf_pos := pos } = tail := hpos
      rw [hrun]
      refine (@ih { r with buf_pos := pos } hsilent ?_
        (Reader.bytes_silent hsilent)).of_same ?_ ?_ rfl rfl
      · rw [hused]
        rw [hrest, length_append, length_cons] at hrounds
        show tail.length + 2 * r.pending.length < rounds
        omega
      · rw [hused]
        refine clear_congr ?_ ?_
        · have h := hskip []
          rw [append_nil, append_nil] at h
          rw [h]
        · rw [hrest, append_cons, drop_append_last hlength]
      · rw [hbytes, hskip, Reader.bytes_silent]
        · rw [hused]
        · exact hsilent

theorem skipPasteRemainder_silent (hsilent : r.unread = []) : Pauses r (skipPasteRemainder r) := by
  have hrun : skipPasteRemainder r = skipFrom (2 * r.bytes.length + 1) r := bind_ok EState.get_run
  rw [hrun]
  apply skipFrom_silent hsilent
  rw [Reader.bytes_silent hsilent, length_append]
  omega

/-! ## Waiting between events -/

/-- When `read_event` serves what is buffered and pending: outside of a paste, a
sequence without an event is the last, and a paste to be dropped is cut into clear
pieces. -/
inductive Smooth : Mode → List UInt8 → List UInt8 → Prop where
  | rejected {rest pending : List UInt8} (h : Clear rest pending) : Smooth .rejected rest pending
  | cut {mode : Mode} {rest pending : List UInt8} (hmode : mode ≠ .rejected)
      (h : decoded (rest ++ pending) = none) : Smooth mode rest pending
  | event {mode : Mode} {rest pending left : List UInt8} {token : Token} {event : InputEvent}
      (hmode : mode ≠ .rejected) (h : decoded (rest ++ pending) = some (token, left))
      (hstep : mode.step token = .inr event) : Smooth mode rest pending
  | last {mode : Mode} {rest pending : List UInt8} {token : Token} (hmode : mode ≠ .rejected)
      (h : decoded (rest ++ pending) = some (token, []))
      (hstep : mode.step token = .inl .outside) : Smooth mode rest pending
  | next {mode next : Mode} {rest pending left : List UInt8} {token : Token}
      (hmode : mode ≠ .rejected) (h : decoded (rest ++ pending) = some (token, left))
      (hstep : mode.step token = .inl next) (hnext : next ≠ .outside)
      (hleft : Smooth next (ofBuffer pending.length left) (ofPending pending.length left)) :
      Smooth mode rest pending

section Smooth

variable {mode next : Mode} {rest pending : List UInt8} {token : Token}

theorem smooth_rejected : Smooth .rejected rest pending ↔ Clear rest pending := by
  refine ⟨fun h => ?_, .rejected⟩
  cases h with
  | rejected h => exact h
  | cut hmode | event hmode | last hmode | next hmode => exact absurd rfl hmode

theorem smooth_last (hmode : mode ≠ .rejected)
    (hdecoded : decoded (rest ++ pending) = some (token, left))
    (hstep : mode.step token = .inl .outside) : Smooth mode rest pending ↔ left = [] := by
  constructor
  · intro h
    cases h with
    | rejected h => exact absurd rfl hmode
    | cut _ h =>
      rw [hdecoded] at h
      cases h
    | event _ h hevent =>
      rw [hdecoded] at h
      cases h
      rw [hstep] at hevent
      cases hevent
    | last _ h =>
      rw [hdecoded] at h
      cases h
      rfl
    | next _ h hinl hnext =>
      rw [hdecoded] at h
      cases h
      rw [hstep] at hinl
      exact absurd (Sum.inl.inj hinl).symm hnext
  · rintro rfl
    exact .last hmode hdecoded hstep

theorem smooth_next (hmode : mode ≠ .rejected)
    (hdecoded : decoded (rest ++ pending) = some (token, left))
    (hstep : mode.step token = .inl next) (hnext : next ≠ .outside) :
    Smooth mode rest pending ↔
      Smooth next (ofBuffer pending.length left) (ofPending pending.length left) := by
  refine ⟨fun h => ?_, .next hmode hdecoded hstep hnext⟩
  cases h with
  | rejected h => exact absurd rfl hmode
  | cut _ h =>
    rw [hdecoded] at h
    cases h
  | event _ h hevent =>
    rw [hdecoded] at h
    cases h
    rw [hstep] at hevent
    cases hevent
  | last _ h houtside =>
    rw [hdecoded] at h
    cases h
    rw [hstep] at houtside
    exact absurd (Sum.inl.inj houtside) hnext
  | next _ h hinl _ hleft =>
    rw [hdecoded] at h
    cases h
    rw [hstep] at hinl
    cases hinl
    exact hleft

end Smooth

/-- What a run without the terminal comes to. -/
def Serves (r : Reader) : EStateM.Result Stop Reader InputEvent → Prop
  | .ok _ _ => Smooth r.mode r.rest r.pending
  | .error .waiting r' =>
    (Smooth r.mode r.rest r.pending ↔ Idle r') ∧
      (Idle r' → nextEvent r.mode (r.rest ++ r.pending) = none)
  | .error .exhausted _ => False

/-- Behind a sequence that makes no event. -/
theorem Serves.of_next (h : Serves s result)
    (hmode : r.mode ≠ .rejected) (hdecoded : decoded (r.rest ++ r.pending) = some (token, left))
    (hstep : r.mode.step token = .inl s.mode) (hnext : s.mode ≠ .outside) (hleft : Left r left s) :
    Serves r result := by
  have hsmooth := smooth_next hmode hdecoded hstep hnext
  have hevent := nextEvent_next hmode hdecoded hstep
  rw [← hleft.rest, ← hleft.pending] at hsmooth
  rw [← hleft.bytes, Reader.bytes_silent hleft.unread] at hevent
  match result with
  | .ok _ _ => exact hsmooth.mpr h
  | .error .waiting r' => exact ⟨hsmooth.trans h.1, fun hidle => hevent.trans (h.2 hidle)⟩
  | .error .exhausted _ => exact h

theorem afterBuffered_past (hin : r.in_paste = true)
    (hlimit : r.paste_limit_hit = true) :
    afterBuffered again r = (do
      skipPasteRemainder
      modify fun r => { r with paste_limit_hit := false }
      pure .PasteRejected : Reading InputEvent) r := by
  refine (bind_ok EState.get_run).trans ?_
  rw [if_neg (by simp [hin]), if_pos (by simp [hin, hlimit])]

theorem afterBuffered_past_silent (hin : r.in_paste = true)
    (hlimit : r.paste_limit_hit = true) (hsilent : r.unread = []) :
    Serves r (afterBuffered again r) := by
  rw [afterBuffered_past hin hlimit]
  have hpauses := skipPasteRemainder_silent hsilent
  cases hskip : skipPasteRemainder r with
  | ok _ r' =>
    rw [hskip] at hpauses
    rw [bind_ok hskip]
    show Smooth r.mode r.rest r.pending
    rw [Reader.mode_rejected hin hlimit, smooth_rejected]
    exact hpauses
  | error stop r' =>
    rw [hskip] at hpauses
    rw [bind_error hskip]
    cases stop with
    | exhausted => exact hpauses
    | waiting =>
      obtain ⟨hclear, hin', hlimit', hrest, hnone⟩ := hpauses
      have hidle : Idle r' ↔ r'.pending = [] :=
        ⟨Idle.pending, fun hpending =>
          ⟨hpending, Or.inr ⟨hin'.trans hin, hlimit'.trans hlimit, hrest⟩⟩⟩
      rw [Serves, Reader.mode_rejected hin hlimit, smooth_rejected, hidle,
        nextEvent_rejected, ← Reader.bytes_silent hsilent]
      exact ⟨hclear, fun hpending => by rw [hnone hpending]; rfl⟩

/-- With nothing to decode and nothing to drop the terminal is waited for. -/
theorem afterBuffered_waits (htext : r.paste_buf = [] ∨ r.in_paste)
    (hlimit : r.paste_limit_hit = false) (hsilent : r.unread = []) :
    afterBuffered again r = .error .waiting r := by
  refine (bind_ok EState.get_run).trans ?_
  have hnone : ¬ (!r.in_paste && !r.paste_buf.isEmpty) = true := by
    rcases htext with htext | hin
    · simp [htext]
    · simp [hin]
  rw [if_neg hnone, if_neg (by simp [hlimit]), if_pos (by simp [hsilent])]
  rfl

theorem Reader.mode_ne_outside (h : r.in_paste = true) : r.mode ≠ .outside := by
  rw [Reader.mode, h]
  cases r.paste_limit_hit <;> rintro ⟨⟩

/-- Rounds that have no event and nothing more to decode end in a wait. -/
theorem serves_waiting (hmode : r.mode ≠ .rejected)
    (hdecoded : decoded (r.rest ++ r.pending) = some (token, left))
    (hstep : r.mode.step token = .inl .outside) (hout : s.in_paste = false)
    (hleft : Left r left s) : Serves r (.error .waiting s) := by
  have hidle : Idle s ↔ left = [] := by
    rw [← hleft.bytes, Reader.bytes_silent hleft.unread, append_eq_nil_iff]
    constructor
    · rintro ⟨hpending, hrest | ⟨hin, -⟩⟩
      · exact ⟨hrest, hpending⟩
      · rw [hout] at hin
        cases hin
    · rintro ⟨hrest, hpending⟩
      exact ⟨hpending, Or.inl hrest⟩
  rw [Serves, smooth_last hmode hdecoded hstep, hidle]
  refine ⟨Iff.rfl, ?_⟩
  rintro rfl
  exact nextEvent_next hmode hdecoded hstep

/-- **A run without the terminal**: with an event, or in a wait that is idle as
the bytes are smooth. -/
theorem readFrom_silent (hr : r.Sound) (hsilent : r.unread = [])
    (hrounds : r.bytes.length < rounds) : Serves r (readFrom rounds r) := by
  induction rounds generalizing r with
  | zero => exact absurd hrounds (Nat.not_lt_zero _)
  | succ rounds ih =>
    have hopen : readFrom (rounds + 1) r = _ := bind_ok EState.get_run
    rw [hopen]
    by_cases hpast : r.in_paste = true ∧ r.paste_limit_hit = true
    · rw [if_neg (by simp [hpast.1, hpast.2])]
      exact afterBuffered_past_silent hpast.1 hpast.2 hsilent
    have hlimit : r.paste_limit_hit = false := by
      cases hin : r.in_paste with
      | false => exact (hr.outside hin).2
      | true =>
        rw [hin] at hpast
        simpa using hpast
    have hmode := Reader.mode_ne_rejected hlimit
    by_cases hbuffered : r.buffered = true
    · rw [if_pos (by simp [hbuffered, hlimit])]
      have hdecode := decodeKey_silent hsilent
      cases hdecoded : decoded (r.rest ++ r.pending) with
      | none =>
        -- a character is cut short
        rw [hdecoded] at hdecode
        obtain ⟨r', hrun, hrest, hpending⟩ := hdecode
        rw [bind_error hrun, Serves, nextEvent_eq hmode, hdecoded]
        exact ⟨⟨fun _ => ⟨hpending, Or.inl hrest⟩, fun _ => .cut hmode hdecoded⟩, fun _ => rfl⟩
      | some pair =>
        obtain ⟨token, left⟩ := pair
        rw [hdecoded] at hdecode
        obtain ⟨r₁, hrun, hmoved, hleft⟩ := hdecode
        have hlimit₁ : r₁.paste_limit_hit = false := hmoved.paste_limit_hit.trans hlimit
        have hr₁ := hmoved.sound hr
        have hwf₁ := r₁.wf_silent hleft.unread
        have hshort : left.length < rounds := by
          have h := decoded_length hdecoded
          rw [← Reader.bytes_silent hsilent] at h
          omega
        by_cases hkey : ∃ key, token = .key key
        · obtain ⟨key, rfl⟩ := hkey
          rw [bind_ok hrun]
          cases hin : r₁.in_paste with
          | false =>
            rw [bind_ok EState.get_run]
            simp only [hin, Bool.false_eq_true, if_false]
            have hout : r.mode = .outside := hmoved.mode ▸ Reader.mode_outside hin
            exact Smooth.event hmode hdecoded (by rw [hout]; rfl)
          | true =>
            obtain ⟨r₂, hadd, hbytes₂, hwf₂, hr₂, hin₂, hpending₂, hrest₂, hunread₂, hstep⟩ :=
              accumulate_mode hwf₁ hin hlimit₁ key
            have hleft₂ := hleft.of_same hrest₂ hpending₂ hunread₂
            rw [hmoved.mode] at hstep
            rw [bind_ok EState.get_run]
            simp only [hin, if_true]
            rw [bind_ok hadd, bind_ok EState.get_run]
            refine Serves.of_next ?_ hmode hdecoded hstep (Reader.mode_ne_outside hin₂) hleft₂
            by_cases hhit : r₂.paste_limit_hit = true
            · rw [if_pos hhit]
              exact afterBuffered_past_silent hin₂ hhit hleft₂.unread
            · rw [if_neg hhit]
              exact ih hr₂ hleft₂.unread (hleft₂.bytes.symm ▸ hshort)
        · obtain ⟨r₂, hperform, -, hwf₂, hpending₂, hrest₂, hunread₂, hlimit₂, hinside,
            houtside⟩ := perform_mode hr₁ hwf₁ hlimit₁ fun key hsame => hkey ⟨key, hsame⟩
          have hleft₂ := hleft.of_same hrest₂ hpending₂ hunread₂
          rw [hmoved.mode] at hinside houtside
          rw [bind_ok (hrun.trans hperform), bind_ok EState.get_run]
          cases hin : r₂.in_paste with
          | true =>
            simp only [if_true]
            obtain ⟨hr₂, hstep⟩ := hinside hin
            exact (ih hr₂ hleft₂.unread (hleft₂.bytes.symm ▸ hshort)).of_next hmode hdecoded
              hstep (Reader.mode_ne_outside hin) hleft₂
          | false =>
            have hstep := houtside hin
            simp only [Bool.false_eq_true, if_false]
            by_cases htext : r₂.paste_buf = []
            · rw [if_pos htext] at hstep
              rw [afterBuffered_waits (Or.inl htext) hlimit₂ hleft₂.unread]
              exact serves_waiting hmode hdecoded hstep hin hleft₂
            · rw [if_neg htext] at hstep
              rw [afterBuffered_text hin htext]
              exact Smooth.event hmode hdecoded hstep
    · -- nothing is buffered
      simp only [Reader.buffered, Bool.or_eq_true, Bool.not_eq_true', not_or, Bool.not_eq_false,
        List.isEmpty_iff] at hbuffered
      have hnil : decoded (r.rest ++ r.pending) = none := by
        rw [hbuffered.1, hbuffered.2]
        rfl
      have htext : r.paste_buf = [] ∨ r.in_paste := by
        cases hin : r.in_paste with
        | false => exact Or.inl (hr.outside hin).1
        | true => exact Or.inr rfl
      rw [if_neg (by simp [Reader.buffered, hbuffered.1, hbuffered.2]),
        afterBuffered_waits htext hlimit hsilent, Serves, nextEvent_eq hmode, hnil]
      exact ⟨⟨fun _ => ⟨hbuffered.2, Or.inl hbuffered.1⟩, fun _ => .cut hmode hnil⟩, fun _ => rfl⟩

/-! ## Every state of a reader -/

/-- `read_event` while the terminal is silent: the first event of the bytes in
the reader, or a wait when they make none. -/
def Served (r : Reader) : Prop :=
  match readEvent { r with unread := [] } with
  | .ok event r' => nextEvent r.mode (r.rest ++ r.pending) = some (event, r'.bytes)
  | .error .waiting r' => nextEvent r.mode (r.rest ++ r.pending) = none ∧ Idle r'
  | .error .exhausted _ => False

theorem readEvent_inOrder : InOrder readEvent := by
  intro r r' event hr hwf hrun
  exact inOrder_readFrom _ r r' event hr hwf ((bind_ok EState.get_run).symm.trans hrun)

theorem served_iff (hr : r.Sound) : Served r ↔ Smooth r.mode r.rest r.pending := by
  have hrun : readEvent { r with unread := [] } = _ := bind_ok EState.get_run
  have hsound : Reader.Sound { r with unread := [] } := ⟨hr.outside, hr.rejected⟩
  have hserves := readFrom_silent hsound rfl (Nat.lt_succ_self _)
  have horder := @readEvent_inOrder { r with unread := [] }
  rw [Served]
  rw [← hrun] at hserves
  cases hresult : readEvent { r with unread := [] } with
  | ok event r' =>
    rw [hresult] at hserves
    have h := (horder r' event hsound nofun hresult).1
    rw [Reader.bytes_silent rfl] at h
    exact iff_of_true h hserves
  | error stop r' =>
    rw [hresult] at hserves
    cases stop with
    | exhausted => exact absurd hserves id
    | waiting =>
      exact ⟨fun h => hserves.1.mpr h.2, fun h => ⟨hserves.2 (hserves.1.mp h), hserves.1.mp h⟩⟩

/-- **Buffered input is never left waiting, exactly when** the bytes in the reader
are smooth; events are the first of the bytes of the buffer, the pending ones and
the terminal in any case. -/
theorem prompt_iff (hr : r.Sound) (hwf : r.Wf) :
    (Served r ∧ ∀ event r', readEvent r = .ok event r' →
      nextEvent r.mode r.bytes = some (event, r'.bytes)) ↔ Smooth r.mode r.rest r.pending := by
  have horder : ∀ event r', readEvent r = .ok event r' →
      nextEvent r.mode r.bytes = some (event, r'.bytes) :=
    fun event r' hrun => (readEvent_inOrder r r' event hr hwf hrun).1
  rw [served_iff hr]
  exact ⟨And.left, fun h => ⟨h, horder⟩⟩

/-- The states of a reader between events. -/
inductive Reached : Reader → Prop where
  | new (unread : List (List UInt8)) (h : ∀ chunk ∈ unread, chunk ≠ []) :
      Reached { Reader.new with unread }
  | push_pending {r : Reader} (bytes : List UInt8) (h : Reached r) : Reached (r.pushPending bytes)
  | read_event {r r' : Reader} {event : InputEvent} (h : Reached r)
      (hrun : readEvent r = .ok event r') : Reached r'

theorem prompt_iff_letter :
    Served (Reader.new.pushPending [0x61]) ∧
      ∀ event r', readEvent (Reader.new.pushPending [0x61]) = .ok event r' →
        nextEvent .outside [0x61] = some (event, r'.bytes) :=
  (prompt_iff (r := Reader.new.pushPending [0x61]) ⟨fun _ => ⟨rfl, rfl⟩, nofun⟩ nofun).mpr
    (@Smooth.event _ _ _ [] (.key (.char 'a')) _ nofun rfl rfl)

/-- The reader behind the first key of the input `x`, NUL, `a`. -/
def behindKey : Reader := { Reader.new with buf := [0x78, 0x00, 0x61], buf_pos := 1 }

theorem nul_hides_key :
    readEvent { Reader.new with unread := [[0x78, 0x00, 0x61]] } =
      .ok (.Key (.char 'x')) behindKey ∧
    nextEvent behindKey.mode behindKey.bytes = some (.Key (.char 'a'), []) ∧ ¬ Served behindKey := by
  have hrun : readEvent { Reader.new with unread := [[0x78, 0x00, 0x61]] } =
      .ok (.Key (.char 'x')) behindKey := rfl
  have hnext : nextEvent behindKey.mode behindKey.bytes = some (.Key (.char 'a'), []) := by decide
  have hwait : readEvent { behindKey with unread := [] } =
      .error .waiting { behindKey with buf_pos := 2 } := rfl
  refine ⟨hrun, hnext, fun hserved => ?_⟩
  rw [Served, hwait] at hserved
  have hnone := hserved.1
  cases hnext.symm.trans hnone

end Ish.Input
