import Ish.Input.Skip

/-!
# Bracketed pastes

What `read_event` makes of `ESC[200~ p ESC[201~ q`, whatever reads the bytes
come in. The keys of `p` are decoded one by one, so the paste is framed by its
markers only if `p` is read as whole sequences and none of them is taken for a
marker.
-/

namespace Ish.Input

open Ish.Lib List
open EState (bind_ok bind_error)

/-! ## The text of a paste -/

def Token.text : Token → List Char
  | .key event => keyText event
  | _ => []

/-- The text pasted so far, after one more token. -/
def extend (text : List Char) : Token → List Char
  | .pasteStart => []
  | token => text ++ token.text

/-- The text of the tokens since the last `ESC[200~`. -/
def sinceStart (ts : List Token) : List Char := ts.foldl extend []

/-- The tokens of `bytes`, and whether the last of them is cut short. -/
def tokensFrom : Nat → List UInt8 → List Token × Bool
  | 0, _ => ([], false)
  | fuel + 1, bytes =>
    if bytes.isEmpty then ([], false)
    else match scanToken bytes with
      | none => ([], true)
      | some (token, rest) =>
        let (ts, cut) := tokensFrom fuel rest
        (token :: ts, cut)

def tokens (bytes : List UInt8) : List Token × Bool := tokensFrom bytes.length bytes

/-- The decoded text of `bytes`. -/
def pasteText (bytes : List UInt8) : List Char := (tokens bytes).1.flatMap Token.text

/-- The event for a paste of `text`. -/
def pasteEvent (text : List Char) : InputEvent :=
  if utf8Len text ≤ PASTE_LIMIT then .Paste text else .PasteRejected

/-! ## Framing -/

/-- A reader outside of pastes. -/
structure Fresh (r : Reader) : Prop where
  in_paste : r.in_paste = false
  paste_buf : r.paste_buf = []
  paste_limit_hit : r.paste_limit_hit = false
  pending : r.pending = []
  wf : r.Wf

/-- The reader of a terminal whose bytes come in the reads `reads`. -/
def Reader.ofReads (reads : List (List UInt8)) : Reader := { Reader.new with unread := reads }

/-- The same event and reader, or none. -/
def SameEvent : EStateM.Result Stop Reader InputEvent → EStateM.Result Stop Reader InputEvent → Prop
  | .ok event r, .ok event' r' => event = event' ∧ r = r'
  | .error _ _, .error _ _ => True
  | _, _ => False

/-- `read_event` delivers the one event for the paste `p`, if its text is not
empty, and is then a fresh reader with `q` to come. -/
def Delivers (r : Reader) (p q : List UInt8) : Prop :=
  ∃ r', Fresh r' ∧ r'.bytes = q ∧
    if pasteText p = [] then SameEvent (readEvent r) (readEvent r')
    else readEvent r = .ok (pasteEvent (pasteText p)) r'

/-- The paste `p` is delivered whatever follows it and however the bytes are
split over reads. -/
def Framed (p : List UInt8) : Prop :=
  ∀ q reads, (∀ chunk ∈ reads, chunk ≠ []) → reads.flatten = PASTE_START ++ (p ++ (PASTE_END ++ q)) →
    Delivers (.ofReads reads) p q

/-- The text since the last `ESC[200~` passes the limit before a sequence ends
the paste. -/
def Overlong (p : List UInt8) : Prop :=
  ∃ n, .pasteEnd ∉ (tokens p).1.take n ∧ PASTE_LIMIT < utf8Len (sinceStart ((tokens p).1.take n))

/-- `p` is whole tokens that neither end the paste nor drop text of it, and has
text. -/
def Whole (p : List UInt8) : Prop :=
  (tokens p).2 = false ∧ .pasteEnd ∉ (tokens p).1 ∧ sinceStart (tokens p).1 = pasteText p ∧
    pasteText p ≠ []

def Clean (p : List UInt8) : Prop := Overlong p ∨ Whole p

/-! ## Tokens one after the other -/

/-- `bytes` are the tokens `ts` and then `rest`. -/
inductive Scans : List UInt8 → List Token → List UInt8 → Prop where
  | nil (rest : List UInt8) : Scans rest [] rest
  | cons {bytes next rest : List UInt8} {token : Token} {ts : List Token}
      (head : scanToken bytes = some (token, next)) (tail : Scans next ts rest) :
      Scans bytes (token :: ts) rest

variable {r : Reader} {p q bytes more rest final : List UInt8} {token : Token} {ts : List Token}
  {text : List Char}

theorem Scans.suffix (h : Scans bytes ts rest) : ∃ taken, bytes = taken ++ rest := by
  induction h with
  | nil rest => exact ⟨[], rfl⟩
  | cons head tail ih =>
    obtain ⟨taken, -, hhead⟩ := scanToken_suffix head
    obtain ⟨others, htail⟩ := ih
    exact ⟨taken ++ others, by rw [hhead, htail, append_assoc]⟩

/-- The tokens before any of them. -/
theorem Scans.split (h : Scans bytes ts rest) (n : Nat) :
    ∃ next, Scans bytes (ts.take n) next ∧ Scans next (ts.drop n) rest := by
  induction h generalizing n with
  | nil rest => exact ⟨rest, by simpa using Scans.nil rest, by simpa using Scans.nil rest⟩
  | cons head tail ih =>
    cases n with
    | zero => exact ⟨_, .nil _, .cons head tail⟩
    | succ n =>
      obtain ⟨next, hbefore, hafter⟩ := ih n
      exact ⟨next, .cons head hbefore, hafter⟩

/-- **The tokens of a byte string** are read off it to its end, or to a token
that is cut short. -/
theorem tokensFrom_scans (hfuel : bytes.length ≤ fuel) :
    ∃ rest, Scans bytes (tokensFrom fuel bytes).1 rest ∧ scanToken rest = none ∧
      ((tokensFrom fuel bytes).2 = true ↔ rest ≠ []) := by
  induction fuel generalizing bytes with
  | zero =>
    have hnil : bytes = [] := length_eq_zero_iff.mp (Nat.le_zero.mp hfuel)
    subst hnil
    exact ⟨[], .nil _, rfl, by simp [tokensFrom]⟩
  | succ fuel ih =>
    cases bytes with
    | nil => exact ⟨[], .nil _, rfl, by simp [tokensFrom]⟩
    | cons byte bytes =>
      rw [tokensFrom, if_neg (by simp)]
      cases hscan : scanToken (byte :: bytes) with
      | none => exact ⟨byte :: bytes, .nil _, hscan, by simp⟩
      | some found =>
        obtain ⟨token, next⟩ := found
        obtain ⟨taken, htaken, heq⟩ := scanToken_suffix hscan
        have hshorter : next.length ≤ fuel := by
          have hpos := length_pos_iff.mpr htaken
          have hlength := congrArg List.length heq
          rw [length_append] at hlength
          omega
        obtain ⟨rest, hscans, hnone, hcut⟩ := ih hshorter
        exact ⟨rest, .cons hscan hscans, hnone, hcut⟩

theorem tokens_scans (p : List UInt8) :
    ∃ rest, Scans p (tokens p).1 rest ∧ scanToken rest = none ∧ ((tokens p).2 = true ↔ rest ≠ []) :=
  tokensFrom_scans (Nat.le_refl _)

/-! ## One round -/

/-- Inside a paste, of which `text` is there already. -/
structure Pasting (r : Reader) (text : List Char) (bytes : List UInt8) : Prop where
  in_paste : r.in_paste = true
  paste_buf : r.paste_buf = text
  paste_limit_hit : r.paste_limit_hit = false
  pending : r.pending = []
  bytes : r.bytes = bytes
  wf : r.Wf

variable {r' : Reader} {n : Nat}

theorem unread_of_unbuffered (hbytes : r.bytes ≠ []) (h : ¬ r.buffered = true) : r.unread ≠ [] := by
  have hthere := buffered_or_unread hbytes
  simpa [h] using hthere

theorem round_open (hbuffered : r.buffered = false) (hin : r.in_paste = false)
    (hunread : r.unread ≠ []) (hkey : decodeKey r = .ok none r') (hin' : r'.in_paste = true)
    (hbuf : r.paste_buf = []) : readFrom (n + 1) r = readFrom n r' := by
  simp [readFrom, afterBuffered, bind_ok EState.get_run, hbuffered, hin, hunread, bind_ok hkey,
    hin', hbuf]

theorem round_none (hbytes : r.bytes ≠ []) (hin : r.in_paste = true)
    (hlimit : r.paste_limit_hit = false) (hkey : decodeKey r = .ok none r')
    (hin' : r'.in_paste = true) : readFrom (n + 1) r = readFrom n r' := by
  by_cases hbuffered : r.buffered
  · simp [readFrom, bind_ok EState.get_run, hbuffered, hlimit, bind_ok hkey, hin']
  · have hunread := unread_of_unbuffered hbytes hbuffered
    simp [readFrom, afterBuffered, bind_ok EState.get_run, hbuffered, hin, hlimit, hunread,
      bind_ok hkey, hin']

theorem round_some (hbytes : r.bytes ≠ []) (hin : r.in_paste = true)
    (hlimit : r.paste_limit_hit = false) (hkey : decodeKey r = .ok (some key) r')
    (hin' : r'.in_paste = true) (hadd : accumulatePasteKey key r' = .ok () r'')
    (hlimit' : r''.paste_limit_hit = false) : readFrom (n + 1) r = readFrom n r'' := by
  by_cases hbuffered : r.buffered
  · simp [readFrom, bind_ok EState.get_run, hbuffered, hlimit, bind_ok hkey, hin', bind_ok hadd,
      hlimit']
  · have hunread := unread_of_unbuffered hbytes hbuffered
    simp [readFrom, afterBuffered, bind_ok EState.get_run, hbuffered, hin, hlimit, hunread,
      bind_ok hkey, hin', bind_ok hadd]

theorem round_limit (hbytes : r.bytes ≠ []) (hin : r.in_paste = true)
    (hlimit : r.paste_limit_hit = false) (hkey : decodeKey r = .ok (some key) r')
    (hin' : r'.in_paste = true) (hadd : accumulatePasteKey key r' = .ok () r'')
    (hin'' : r''.in_paste = true) (hlimit' : r''.paste_limit_hit = true) :
    ∃ again, readFrom (n + 2) r = afterBuffered again r'' := by
  by_cases hbuffered : r.buffered
  · refine ⟨readFrom (n + 1), ?_⟩
    rw [readFrom]
    simp [bind_ok EState.get_run, hbuffered, hlimit, bind_ok hkey, hin', bind_ok hadd, hlimit']
  · have hunread := unread_of_unbuffered hbytes hbuffered
    have hfirst : readFrom (n + 2) r = readFrom (n + 1) r'' := by
      rw [readFrom]
      simp [afterBuffered, bind_ok EState.get_run, hbuffered, hin, hlimit, hunread, bind_ok hkey,
        hin', bind_ok hadd]
    refine ⟨readFrom n, hfirst.trans ?_⟩
    simp [readFrom, bind_ok EState.get_run, hin'', hlimit']

theorem round_paste (hbytes : r.bytes ≠ []) (hin : r.in_paste = true)
    (hlimit : r.paste_limit_hit = false) (hkey : decodeKey r = .ok none r')
    (hin' : r'.in_paste = false) (hlimit' : r'.paste_limit_hit = false) (htext : r'.paste_buf ≠ []) :
    ∃ r'', readFrom (n + 1) r = .ok (.Paste r'.paste_buf) r'' ∧
      r'' = { r' with paste_limit_hit := false, paste_buf := [] } := by
  by_cases hbuffered : r.buffered
  · refine ⟨_, ?_, rfl⟩
    simp [readFrom, afterBuffered, bind_ok EState.get_run, hbuffered, hlimit, bind_ok hkey, hin',
      htext]
    rfl
  · have hunread := unread_of_unbuffered hbytes hbuffered
    refine ⟨{ r' with paste_buf := [] }, ?_, by rw [hlimit']⟩
    simp [readFrom, afterBuffered, bind_ok EState.get_run, hbuffered, hin, hlimit, hunread,
      bind_ok hkey, hin', hlimit', htext]
    rfl

/-- Without text and without reads to come, what is buffered behind a paste
waits. -/
theorem round_wait (hbuffered : r.buffered = true) (hlimit : r.paste_limit_hit = false)
    (hkey : decodeKey r = .ok none r') (hin' : r'.in_paste = false) (htext : r'.paste_buf = [])
    (hunread : r'.unread = []) : readFrom (n + 1) r = .error .waiting r' := by
  simp [readFrom, afterBuffered, bind_ok EState.get_run, hbuffered, hlimit, bind_ok hkey, hin',
    htext, hunread]

/-! ## Steps of a paste -/

theorem accumulate_within (hlimit : r.paste_limit_hit = false)
    (h : utf8Len (r.paste_buf ++ keyText key) ≤ PASTE_LIMIT) :
    accumulatePasteKey key r = .ok () { r with paste_buf := r.paste_buf ++ keyText key } := by
  simp [accumulatePasteKey, bind_ok EState.get_run, hlimit, Nat.not_lt.mpr h]
  rfl

theorem accumulate_over (hlimit : r.paste_limit_hit = false)
    (h : PASTE_LIMIT < utf8Len (r.paste_buf ++ keyText key)) :
    accumulatePasteKey key r = .ok () { r with paste_limit_hit := true, paste_buf := [] } := by
  simp [accumulatePasteKey, bind_ok EState.get_run, hlimit, h]
  rfl

theorem Pasting.ne_nil (hr : Pasting r text (bytes ++ more))
    (hscan : scanToken bytes = some (token, rest)) : r.bytes ≠ [] := by
  rw [hr.bytes]
  intro hnil
  rw [(append_eq_nil_iff.mp hnil).1] at hscan
  cases hscan

/-- **A token of a paste** adds its text, within the limit. -/
theorem paste_step (hr : Pasting r text (bytes ++ more)) (hscan : scanToken bytes = some (token, rest))
    (hend : token ≠ .pasteEnd) (hlimit : utf8Len (extend text token) ≤ PASTE_LIMIT) :
    ∃ r', readFrom (n + 1) r = readFrom n r' ∧ Pasting r' (extend text token) (rest ++ more) ∧
      ∀ final, r.Ends final → r'.Ends final := by
  obtain ⟨r', hdecode, hmoved⟩ := decodeKey_run hr.wf hr.bytes hscan
  have hne := hr.ne_nil hscan
  have hin' := hmoved.in_paste.trans hr.in_paste
  have hbuf' := hmoved.paste_buf.trans hr.paste_buf
  have hlimit' := hmoved.paste_limit_hit.trans hr.paste_limit_hit
  have hpending' := hmoved.pending hr.pending
  cases token with
  | pasteEnd => exact absurd rfl hend
  | nothing =>
    refine ⟨r', round_none hne hr.in_paste hr.paste_limit_hit hdecode hin', ?_, hmoved.ends⟩
    refine ⟨hin', ?_, hlimit', hpending', hmoved.bytes, hmoved.wf⟩
    show r'.paste_buf = text ++ []
    rw [hbuf', append_nil]
  | pasteStart =>
    refine ⟨_, round_none hne hr.in_paste hr.paste_limit_hit hdecode rfl, ?_, hmoved.ends⟩
    exact ⟨rfl, rfl, rfl, hpending', hmoved.bytes, hmoved.wf⟩
  | key key =>
    have hwithin : utf8Len (r'.paste_buf ++ keyText key) ≤ PASTE_LIMIT := by
      rw [hbuf']
      exact hlimit
    refine ⟨_, round_some hne hr.in_paste hr.paste_limit_hit hdecode hin'
      (accumulate_within hlimit' hwithin) hlimit', ?_, hmoved.ends⟩
    exact ⟨hin', congrArg (· ++ keyText key) hbuf', hlimit', hpending', hmoved.bytes, hmoved.wf⟩

theorem afterBuffered_limit (hin : r.in_paste = true)
    (hlimit : r.paste_limit_hit = true) (hbuf : r.paste_buf = []) (hpending : r.pending = [])
    (hwf : r.Wf) :
    match afterMarker r.bytes with
    | some q => ∃ r', afterBuffered again r = .ok .PasteRejected r' ∧ Fresh r' ∧ r'.bytes = q
    | none => ∃ r', afterBuffered again r = .error .waiting r' := by
  have hskip : afterBuffered again r = (skipPasteRemainder >>= fun _ => do
      modify fun r => { r with paste_limit_hit := false }
      pure .PasteRejected) r := by
    simp [afterBuffered, bind_ok EState.get_run, hin, hlimit]
  have hskips := skipPasteRemainder_run hwf hpending
  rw [hskip]
  rw [Skips] at hskips
  cases hmarker : afterMarker r.bytes with
  | none =>
    rw [hmarker] at hskips
    obtain ⟨r', hrun⟩ := hskips
    exact ⟨r', bind_error hrun⟩
  | some q =>
    rw [hmarker] at hskips
    obtain ⟨r', hrun, hbytes, hwf', hpending', hin', hbuf', -⟩ := hskips
    refine ⟨{ r' with paste_limit_hit := false }, (bind_ok hrun).trans rfl, ?_, hbytes⟩
    exact ⟨hin', hbuf'.trans hbuf, rfl, hpending', hwf'⟩

theorem limit_step (hr : Pasting r text (bytes ++ more)) (hscan : scanToken bytes = some (token, rest))
    (hwithin : utf8Len text ≤ PASTE_LIMIT) (hlimit : PASTE_LIMIT < utf8Len (extend text token)) :
    match afterMarker (rest ++ more) with
    | some q => ∃ r', readFrom (n + 2) r = .ok .PasteRejected r' ∧ Fresh r' ∧ r'.bytes = q
    | none => ∃ r', readFrom (n + 2) r = .error .waiting r' := by
  obtain ⟨r', hdecode, hmoved⟩ := decodeKey_run hr.wf hr.bytes hscan
  have hne := hr.ne_nil hscan
  have hin' := hmoved.in_paste.trans hr.in_paste
  have hlimit' := hmoved.paste_limit_hit.trans hr.paste_limit_hit
  -- only a key has text
  obtain ⟨key, rfl⟩ : ∃ key, token = .key key := by
    cases token with
    | key key => exact ⟨key, rfl⟩
    | pasteStart => exact absurd hlimit (by simp [extend, utf8Len])
    | nothing | pasteEnd => exact absurd hlimit (by simpa [extend, Token.text] using hwithin)
  have hover : PASTE_LIMIT < utf8Len (r'.paste_buf ++ keyText key) := by
    rw [hmoved.paste_buf, hr.paste_buf]
    exact hlimit
  have hbytes' : Reader.bytes { r' with paste_limit_hit := true, paste_buf := [] } = rest ++ more :=
    hmoved.bytes
  obtain ⟨again, hround⟩ := round_limit (n := n) hne hr.in_paste hr.paste_limit_hit hdecode hin'
    (accumulate_over hlimit' hover) hin' rfl
  rw [hround, ← hbytes']
  exact afterBuffered_limit hin' rfl rfl (hmoved.pending hr.pending) hmoved.wf

theorem end_step (hr : Pasting r text (bytes ++ more))
    (hscan : scanToken bytes = some (.pasteEnd, rest)) (htext : text ≠ []) :
    ∃ r', readFrom (n + 1) r = .ok (.Paste text) r' ∧ Fresh r' ∧ r'.bytes = rest ++ more := by
  obtain ⟨r', hdecode, hmoved⟩ := decodeKey_run hr.wf hr.bytes hscan
  have hne := hr.ne_nil hscan
  have hbuf' := hmoved.paste_buf.trans hr.paste_buf
  have hlimit' := hmoved.paste_limit_hit.trans hr.paste_limit_hit
  obtain ⟨r'', hround, heq⟩ := round_paste (n := n) hne hr.in_paste hr.paste_limit_hit hdecode rfl
    hlimit' (by rwa [← hbuf'] at htext)
  refine ⟨r'', by rw [hround, ← hbuf'], ?_, ?_⟩
  · rw [heq]
    exact ⟨rfl, rfl, rfl, hmoved.pending hr.pending, hmoved.wf⟩
  · rw [heq]
    exact hmoved.bytes

theorem wait_step (hr : Pasting r [] (bytes ++ more))
    (hscan : scanToken bytes = some (.pasteEnd, rest)) (hends : r.Ends final)
    (hlength : (bytes ++ more).length < final.length) :
    ∃ r', readFrom (n + 1) r = .error .waiting r' := by
  obtain ⟨r', hdecode, hmoved⟩ := decodeKey_run hr.wf hr.bytes hscan
  obtain ⟨taken, htaken, hsplit⟩ := scanToken_suffix hscan
  have hunread := hends.unread (by rwa [hr.bytes])
  have hunread' : r'.unread = [] := by
    apply (hmoved.ends final hends).unread
    rw [hmoved.bytes]
    rw [hsplit, append_assoc, length_append] at hlength
    omega
  have hbuffered : r.buffered = true := by
    have hthere := buffered_or_unread (r := r) (by
      rw [hr.bytes, hsplit]
      simp [htaken])
    simpa [hunread] using hthere
  exact ⟨_, round_wait hbuffered hr.paste_limit_hit hdecode rfl
    (hmoved.paste_buf.trans hr.paste_buf) hunread'⟩

/-! ## Runs of a paste -/

theorem paste_run (h : Scans p ts rest) (hr : Pasting r text (p ++ more)) (hend : .pasteEnd ∉ ts)
    (hlimit : ∀ m, utf8Len ((ts.take m).foldl extend text) ≤ PASTE_LIMIT) :
    ∃ r', readFrom (n + ts.length) r = readFrom n r' ∧
      Pasting r' (ts.foldl extend text) (rest ++ more) ∧ ∀ final, r.Ends final → r'.Ends final := by
  induction h generalizing r text with
  | nil rest => exact ⟨r, rfl, hr, fun _ => id⟩
  | @cons bytes next rest token ts head tail ih =>
    rw [mem_cons, not_or] at hend
    obtain ⟨r', hstep, hr', hends⟩ :=
      paste_step (n := n + ts.length) hr head (Ne.symm hend.1) (hlimit 1)
    obtain ⟨r'', hrun, hr'', hends'⟩ := ih hr' hend.2 fun m => hlimit (m + 1)
    exact ⟨r'', hstep.trans hrun, hr'', fun final hfinal => hends' final (hends final hfinal)⟩

theorem Scans.length (h : Scans p ts rest) : ts.length + rest.length ≤ p.length := by
  induction h with
  | nil rest => simp
  | cons head tail ih =>
    obtain ⟨taken, htaken, heq⟩ := scanToken_suffix head
    have hpos := length_pos_iff.mpr htaken
    rw [heq, length_append, length_cons]
    omega

/-- The first marker opens the paste. -/
theorem start_run (hreads : ∀ chunk ∈ reads, chunk ≠ [])
    (hbytes : reads.flatten = PASTE_START ++ bytes) :
    ∃ r', readFrom (n + 1) (.ofReads reads) = readFrom n r' ∧ Pasting r' [] bytes ∧
      ∀ final, (Reader.ofReads reads).Ends final → r'.Ends final := by
  have hscan : scanToken PASTE_START = some (.pasteStart, []) := by decide
  obtain ⟨r', hdecode, hmoved⟩ := decodeKey_run (r := .ofReads reads) hreads hbytes hscan
  have hunread : reads ≠ [] := by
    rintro rfl
    cases hbytes
  refine ⟨{ r' with in_paste := true, paste_buf := [], paste_limit_hit := false }, ?_, ?_,
    hmoved.ends⟩
  · have hkey : decodeKey (.ofReads reads) = .ok none
        { r' with in_paste := true, paste_buf := [], paste_limit_hit := false } := hdecode
    exact round_open rfl rfl hunread hkey rfl rfl
  · exact ⟨rfl, rfl, rfl, hmoved.pending rfl, hmoved.bytes, hmoved.wf⟩

/-- **The body of a paste** is read up to the end of the tokens `ts`. -/
theorem body_run (hreads : ∀ chunk ∈ reads, chunk ≠ [])
    (hbytes : reads.flatten = PASTE_START ++ (p ++ more)) (h : Scans p ts rest)
    (hend : .pasteEnd ∉ ts) (hlimit : ∀ m, utf8Len (sinceStart (ts.take m)) ≤ PASTE_LIMIT) :
    ∃ n r', rest.length + more.length + 4 ≤ n ∧ readEvent (.ofReads reads) = readFrom (n + 2) r' ∧
      Pasting r' (sinceStart ts) (rest ++ more) ∧
      ∀ final, (Reader.ofReads reads).Ends final → r'.Ends final := by
  have hall : (Reader.ofReads reads).bytes.length = 6 + (p.length + more.length) := by
    have hlength : (PASTE_START ++ (p ++ more)).length = 6 + (p.length + more.length) := by
      rw [length_append, length_append]
      rfl
    rw [← hlength, ← hbytes]
    rfl
  have hshort := h.length
  obtain ⟨n, hn⟩ : ∃ n, n + 2 + ts.length = 6 + (p.length + more.length) :=
    ⟨4 + (p.length + more.length) - ts.length, by omega⟩
  obtain ⟨r', hstart, hr', hends⟩ := start_run (n := n + 2 + ts.length) hreads hbytes
  obtain ⟨r'', hrun, hr'', hends'⟩ := paste_run (n := n + 2) h hr' hend hlimit
  have hevent : readEvent (.ofReads reads) = readFrom (n + 2 + ts.length + 1) (.ofReads reads) := by
    rw [hn, ← hall]
    exact bind_ok EState.get_run
  refine ⟨n, r'', by omega, hevent.trans (hstart.trans hrun), hr'', ?_⟩
  exact fun final hfinal => hends' final (hends final hfinal)

/-- A paste without a marker to come. -/
theorem stuck_run (h : Scans bytes ts []) (hr : Pasting r text bytes) (hend : .pasteEnd ∉ ts)
    (hwithin : utf8Len text ≤ PASTE_LIMIT) (hesc : ESC ∉ bytes) :
    ∃ r', readFrom (n + ts.length + 2) r = .error .waiting r' := by
  generalize hnil : ([] : List UInt8) = last at h
  induction h generalizing r text with
  | nil rest =>
    subst hnil
    have hunread : r.unread = [] := by
      have hbytes := hr.bytes
      rw [Reader.bytes, append_eq_nil_iff, append_eq_nil_iff] at hbytes
      by_contra hne
      obtain ⟨chunk, hchunk⟩ := exists_mem_of_ne_nil _ hne
      exact hr.wf chunk hchunk (flatten_eq_nil_iff.mp hbytes.2.2 chunk hchunk)
    have hbuffered : r.buffered = false := by
      have hbytes := hr.bytes
      rw [Reader.bytes, append_eq_nil_iff] at hbytes
      rw [Reader.buffered, hbytes.1, hr.pending]
      rfl
    refine ⟨r, ?_⟩
    simp [readFrom, afterBuffered, bind_ok EState.get_run, hbuffered, hr.in_paste,
      hr.paste_limit_hit, hunread]
  | @cons bytes next rest token ts head tail ih =>
    rw [mem_cons, not_or] at hend
    obtain ⟨taken, -, hsplit⟩ := scanToken_suffix head
    have hnext : ESC ∉ next := fun hmem => hesc (by rw [hsplit]; exact mem_append_right _ hmem)
    rw [← append_nil bytes] at hr
    by_cases hlimit : utf8Len (extend text token) ≤ PASTE_LIMIT
    · obtain ⟨r', hstep, hr', -⟩ :=
        paste_step (n := n + ts.length + 2) hr head (Ne.symm hend.1) hlimit
      rw [append_nil] at hr'
      obtain ⟨r'', hrun⟩ := ih hr' hend.2 hlimit hnext hnil
      exact ⟨r'', hstep.trans hrun⟩
    · have hover := limit_step (n := n + ts.length + 1) hr head hwithin (Nat.lt_of_not_le hlimit)
      rw [append_nil, afterMarker_no_escape hnext] at hover
      exact hover

/-! ## Tokens that are cut short -/

/-- A token that adds nothing to a paste and does not end it. -/
def Harmless (token : Token) : Prop := token.text = [] ∧ token ≠ .pasteStart ∧ token ≠ .pasteEnd

theorem scanCsi_cut (h : scanCsi params bytes = none) :
    scanCsi params (bytes ++ [ESC]) = some (.nothing, []) := by
  induction bytes generalizing params with
  | nil => rfl
  | cons byte bytes ih =>
    rw [scanCsi] at h
    rw [cons_append, scanCsi]
    cases hstep : params.step byte with
    | inl next =>
      rw [hstep] at h
      exact ih h
    | inr found =>
      rw [hstep] at h
      cases h

theorem scanUtf8_cut {count cp} (h : scanUtf8 count cp bytes = none) :
    scanUtf8 count cp (bytes ++ [ESC]) = some (.nothing, []) := by
  induction bytes generalizing count cp with
  | nil =>
    cases count with
    | zero => cases h
    | succ count => rfl
  | cons byte bytes ih =>
    cases count with
    | zero => cases h
    | succ count =>
      rw [scanUtf8] at h
      rw [cons_append, scanUtf8]
      cases hstep : utf8Step cp byte with
      | none =>
        rw [hstep] at h
        cases h
      | some next =>
        rw [hstep] at h
        exact ih h

theorem harmless_nothing : Harmless .nothing := ⟨rfl, nofun, nofun⟩

theorem scanEscape_cut (h : scanEscape bytes = none) :
    ∃ token, scanEscape (bytes ++ [ESC]) = some (token, []) ∧ Harmless token := by
  cases bytes with
  | nil => exact ⟨escapeToken ESC, rfl, rfl, nofun, nofun⟩
  | cons byte bytes =>
    rw [scanEscape] at h
    rw [cons_append, scanEscape]
    by_cases hcsi : byte = 0x5b
    · rw [if_pos hcsi] at h ⊢
      exact ⟨.nothing, scanCsi_cut h, harmless_nothing⟩
    rw [if_neg hcsi] at h ⊢
    by_cases hss3 : byte = 0x4f
    · rw [if_pos hss3] at h ⊢
      cases bytes with
      | nil => exact ⟨.nothing, rfl, harmless_nothing⟩
      | cons final bytes => cases h
    · rw [if_neg hss3] at h
      cases h

/-- **A token that is cut short** takes the escape behind it. -/
theorem scanToken_cut (h : scanToken bytes = none) (hne : bytes ≠ []) :
    ∃ token, scanToken (bytes ++ [ESC]) = some (token, []) ∧ Harmless token := by
  cases bytes with
  | nil => exact absurd rfl hne
  | cons byte bytes =>
    rw [scanToken] at h
    rw [cons_append, scanToken]
    by_cases hesc : byte = ESC
    · rw [if_pos hesc] at h ⊢
      exact scanEscape_cut h
    rw [if_neg hesc] at h ⊢
    by_cases hascii : byte < 0x80
    · rw [if_pos hascii] at h
      cases h
    rw [if_neg hascii] at h ⊢
    cases hlead : utf8Lead byte with
    | none =>
      rw [hlead] at h
      cases h
    | some lead =>
      rw [hlead] at h
      exact ⟨.nothing, scanUtf8_cut h, harmless_nothing⟩

end Ish.Input
