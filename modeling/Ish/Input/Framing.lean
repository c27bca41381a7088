import Ish.Input.Paste
import Mathlib.Data.Nat.Find

/-!
# When a paste is framed

Two kinds of pastes are delivered as they should: those whose text passes the
limit before any sequence ends them, and those that are whole tokens with a
text. Every other paste goes wrong for some reads and some bytes behind it,
unless it closes and reopens itself far from its end.
-/

namespace Ish.Input

open Ish.Lib List
open EState (bind_ok bind_error)

variable {r r' : Reader} {p q bytes more rest final : List UInt8} {token : Token} {ts : List Token}
  {text : List Char} {n : Nat}

/-! ## Texts -/

theorem utf8Len_append (a b : List Char) : utf8Len (a ++ b) = utf8Len a + utf8Len b := by
  rw [utf8Len, map_append, sum_append]
  rfl

/-- What is pasted is the end of the whole text. -/
theorem foldl_extend_suffix (ts : List Token) (text : List Char) :
    ts.foldl extend text <:+ text ++ ts.flatMap Token.text := by
  induction ts generalizing text with
  | nil => simp
  | cons token ts ih =>
    rw [foldl_cons, flatMap_cons, ← append_assoc]
    apply (ih (extend text token)).trans
    cases token with
    | pasteStart => exact (suffix_append _ _)
    | nothing | pasteEnd | key key => exact suffix_refl _

theorem sinceStart_suffix (ts : List Token) : sinceStart ts <:+ ts.flatMap Token.text :=
  foldl_extend_suffix ts []

theorem utf8Len_sinceStart_take (ts : List Token) (n : Nat) :
    utf8Len (sinceStart (ts.take n)) ≤ utf8Len (ts.flatMap Token.text) := by
  obtain ⟨before, heq⟩ := sinceStart_suffix (ts.take n)
  have hsplit : ts.flatMap Token.text =
      before ++ sinceStart (ts.take n) ++ (ts.drop n).flatMap Token.text := by
    rw [heq, ← flatMap_append, take_append_drop]
  rw [hsplit, utf8Len_append, utf8Len_append]
  omega

theorem pasteText_ne_nil (h : sinceStart ((tokens p).1.take n) ≠ []) : pasteText p ≠ [] := by
  intro hnil
  obtain ⟨before, heq⟩ := sinceStart_suffix ((tokens p).1.take n)
  have hall : (tokens p).1.flatMap Token.text = [] := hnil
  rw [← take_append_drop n (tokens p).1, flatMap_append, ← heq] at hall
  exact h (append_eq_nil_iff.mp (append_eq_nil_iff.mp hall).1).2

/-! ## Clean pastes -/

theorem within_of_not_overlong (h : ¬ Overlong p)
    (hend : .pasteEnd ∉ (tokens p).1.take n) (m : Nat) :
    utf8Len (sinceStart (((tokens p).1.take n).take m)) ≤ PASTE_LIMIT := by
  by_contra hover
  rw [take_take] at hover
  refine h ⟨min m n, fun hmem => hend ?_, Nat.lt_of_not_le hover⟩
  rw [← take_take] at hmem
  exact mem_of_mem_take hmem

theorem take_pasteEnd {m} (h : .pasteEnd ∉ ts.take (m + 1)) : .pasteEnd ∉ ts.take m :=
  fun hmem => h ((take_prefix_take_left (Nat.le_succ m)).subset hmem)

theorem take_succ_of_drop {m others} (h : ts.drop m = token :: others) :
    ts.take (m + 1) = ts.take m ++ [token] := by
  have hone : (ts.drop m).take 1 = [token] := by
    rw [h]
    rfl
  rw [← hone, ← take_add]

theorem Overlong.first (h : Overlong p) :
    ∃ m token ts, (tokens p).1.drop m = token :: ts ∧ .pasteEnd ∉ (tokens p).1.take m ∧
      (∀ k, utf8Len (sinceStart (((tokens p).1.take m).take k)) ≤ PASTE_LIMIT) ∧
      PASTE_LIMIT < utf8Len (extend (sinceStart ((tokens p).1.take m)) token) := by
  classical
  obtain ⟨hend, hover⟩ := Nat.find_spec h
  have hbefore := fun m (hm : m < Nat.find h) => Nat.find_min h hm
  generalize Nat.find h = n at hend hover hbefore
  obtain ⟨m, rfl⟩ : ∃ m, n = m + 1 := by
    cases n with
    | zero => simp [sinceStart, utf8Len] at hover
    | succ m => exact ⟨m, rfl⟩
  have hend' := take_pasteEnd hend
  cases hdrop : (tokens p).1.drop m with
  | nil =>
    -- there is no further token
    have hsame : (tokens p).1.take (m + 1) = (tokens p).1.take m := by
      have hlength := drop_eq_nil_iff.mp hdrop
      rw [take_of_length_le hlength, take_of_length_le (Nat.le_succ_of_le hlength)]
    rw [hsame] at hover
    exact absurd ⟨hend', hover⟩ (hbefore m (Nat.lt_succ_self m))
  | cons token ts =>
    refine ⟨m, token, ts, hdrop, hend', fun k => ?_, ?_⟩
    · by_contra hk
      rw [take_take] at hk
      apply hbefore (min k m) (by omega)
      refine ⟨fun hmem => hend' ?_, Nat.lt_of_not_le hk⟩
      rw [← take_take] at hmem
      exact mem_of_mem_take hmem
    · rw [take_succ_of_drop hdrop, sinceStart, foldl_append] at hover
      exact hover

/-- **A paste past the limit** is rejected. -/
theorem framed_of_overlong (hmarker : ¬ PASTE_END <:+: p) (h : Overlong p) : Framed p := by
  intro q reads hreads hbytes
  obtain ⟨m, token, ts, hdrop, hend, hlimit, hover⟩ := h.first
  obtain ⟨last, hscans, -, -⟩ := tokens_scans p
  obtain ⟨next, hbefore, hafter⟩ := hscans.split m
  rw [hdrop] at hafter
  cases hafter with
  | @cons _ rest _ _ _ head tail =>
    obtain ⟨n, r, -, hevent, hr, -⟩ := body_run hreads hbytes hbefore hend hlimit
    have hwithin : utf8Len (sinceStart ((tokens p).1.take m)) ≤ PASTE_LIMIT := by
      have hall := hlimit m
      rwa [take_take, Nat.min_self] at hall
    have hstep := limit_step (n := n) hr head hwithin hover
    -- the rest of the paste holds no marker
    have hrest : ¬ PASTE_END <:+: rest := by
      obtain ⟨taken, hnext⟩ := hbefore.suffix
      obtain ⟨taken', -, hrest⟩ := scanToken_suffix head
      have hsuffix : rest <:+ p := ⟨taken ++ taken', by rw [hnext, hrest, append_assoc]⟩
      exact fun hinside => hmarker (hinside.trans hsuffix.isInfix)
    rw [afterMarker_text hrest q] at hstep
    obtain ⟨r', hrun, hfresh, hleft⟩ := hstep
    -- and the whole text is as long
    have hlong : PASTE_LIMIT < utf8Len (pasteText p) := by
      have htake : utf8Len (sinceStart ((tokens p).1.take (m + 1))) ≤ utf8Len (pasteText p) :=
        utf8Len_sinceStart_take _ _
      rw [take_succ_of_drop hdrop, sinceStart, foldl_append] at htake
      exact Nat.lt_of_lt_of_le hover htake
    have htext : pasteText p ≠ [] := by
      intro hnil
      rw [hnil] at hlong
      cases hlong
    refine ⟨r', hfresh, hleft, ?_⟩
    rw [if_neg htext, pasteEvent, if_neg (Nat.not_le.mpr hlong)]
    exact hevent.trans hrun

/-- **A whole paste** is delivered. -/
theorem framed_of_whole (hlimit : ¬ Overlong p) (h : Whole p) : Framed p := by
  intro q reads hreads hbytes
  obtain ⟨hcut, hend, hsince, htext⟩ := h
  obtain ⟨rest, hscans, -, hrest⟩ := tokens_scans p
  have hnil : rest = [] := by
    by_contra hne
    rw [hrest.mpr hne] at hcut
    cases hcut
  subst hnil
  have hwithin : ∀ k, utf8Len (sinceStart ((tokens p).1.take k)) ≤ PASTE_LIMIT := fun k =>
    Nat.le_of_not_lt fun hover =>
      hlimit ⟨k, fun hmem => hend (mem_of_mem_take hmem), hover⟩
  obtain ⟨n, r, -, hevent, hr, -⟩ := body_run hreads hbytes hscans hend hwithin
  have hscan : scanToken PASTE_END = some (.pasteEnd, []) := by decide
  rw [nil_append] at hr
  obtain ⟨r', hrun, hfresh, hleft⟩ := end_step (n := n + 1) hr hscan (by rwa [hsince])
  have hall := hwithin (tokens p).1.length
  rw [take_length, hsince] at hall
  refine ⟨r', hfresh, hleft, ?_⟩
  rw [if_neg htext, pasteEvent, if_pos hall, ← hsince]
  exact hevent.trans hrun

/-! ## Other pastes -/

theorem fresh_key (hr : Fresh r) (hbytes : r.bytes = [0x61]) :
    ∃ r', readEvent r = .ok (.Key (.char 'a')) r' := by
  have hscan : scanToken [0x61] = some (.key (.char 'a'), []) := by decide
  obtain ⟨r', hdecode, hmoved⟩ :=
    decodeKey_run hr.wf (show r.bytes = [0x61] ++ [] from hbytes) hscan
  have hkey : decodeKey r = .ok (some (.char 'a')) r' := hdecode
  have hin' := hmoved.in_paste.trans hr.in_paste
  have hevent : readEvent r = readFrom 2 r := by
    refine (bind_ok EState.get_run).trans ?_
    rw [hbytes]
    rfl
  refine ⟨r', hevent.trans ?_⟩
  by_cases hbuffered : r.buffered
  · simp [readFrom, bind_ok EState.get_run, hbuffered, hr.in_paste, bind_ok hkey, hin']
  · have hunread := unread_of_unbuffered (by simp [hbytes]) hbuffered
    simp [readFrom, afterBuffered, bind_ok EState.get_run, hbuffered, hr.in_paste, hr.paste_buf,
      hunread, bind_ok hkey, hin']

/-- A key behind a paste is not waited for. -/
theorem Delivers.no_wait (h : Delivers r p [0x61]) {e} : readEvent r ≠ .error e r' := by
  intro hwait
  obtain ⟨fresh, hfresh, hbytes, hevent⟩ := h
  rw [hwait] at hevent
  split at hevent
  · obtain ⟨r'', hkey⟩ := fresh_key hfresh hbytes
    rw [hkey] at hevent
    exact hevent
  · cases hevent

/-- Reads of some bytes, the last of which starts one byte before `more`. -/
theorem final_read (hne : bytes ≠ []) (hlength : more.length < READ_BUF_SIZE) :
    ∃ reads : List (List UInt8), (∀ chunk ∈ reads, chunk ≠ []) ∧ reads.flatten = bytes ++ more ∧
      ∃ final, (Reader.ofReads reads).Ends final ∧ more.length < final.length := by
  obtain ⟨before, last, rfl⟩ := (eq_nil_or_concat bytes).resolve_left hne
  refine ⟨before.map (fun byte => [byte]) ++ [last :: more], ?_, ?_, last :: more, ?_, ?_⟩
  · intro chunk hchunk
    rcases mem_append.mp hchunk with hbefore | hlast
    · obtain ⟨byte, -, rfl⟩ := mem_map.mp hbefore
      exact cons_ne_nil _ _
    · rw [mem_singleton.mp hlast]
      exact cons_ne_nil _ _
  · rw [flatten_append, flatten_singleton, ← flatMap_def, flatMap_singleton']
    simp
  · exact ⟨hlength, .inr ⟨_, rfl⟩⟩
  · exact Nat.lt_succ_self _

/-- With no text pasted, a sequence that ends the paste comes far from the end
of `p`. -/
def ClosesEmpty (p : List UInt8) : Prop :=
  ∃ ts left rest, Scans p ts left ∧ scanToken left = some (.pasteEnd, rest) ∧ .pasteEnd ∉ ts ∧
    sinceStart ts = [] ∧ READ_BUF_SIZE ≤ left.length + 7

/-- A paste that ends without text makes what is buffered behind it wait. -/
theorem not_framed_of_wait {taken left} (hp : p = taken ++ left)
    (hsplit : ∃ found after, scanToken found = some (.pasteEnd, rest) ∧
      left ++ (PASTE_END ++ [0x61]) = found ++ after)
    (hscans : Scans p ts left) (hend : .pasteEnd ∉ ts)
    (hlimit : ∀ m, utf8Len (sinceStart (ts.take m)) ≤ PASTE_LIMIT) (htext : sinceStart ts = [])
    (hlength : left.length + 7 < READ_BUF_SIZE) : ¬ Framed p := by
  intro hframed
  obtain ⟨found, after, hscan, heq⟩ := hsplit
  have hmore : (left ++ (PASTE_END ++ [0x61])).length < READ_BUF_SIZE := by
    rw [length_append]
    exact hlength
  have hne : PASTE_START ++ taken ≠ [] := nofun
  obtain ⟨reads, hreads, hbytes, final, hfinal, hshorter⟩ := final_read hne hmore
  have hbytes : reads.flatten = PASTE_START ++ (p ++ (PASTE_END ++ [0x61])) := by
    rw [hbytes, hp, append_assoc, append_assoc]
  obtain ⟨n, r, -, hevent, hr, hends⟩ := body_run hreads hbytes hscans hend hlimit
  rw [htext, heq] at hr
  rw [heq] at hshorter
  obtain ⟨r', hwait⟩ := wait_step (n := n + 1) hr hscan (hends final hfinal) hshorter
  exact (hframed [0x61] reads hreads hbytes).no_wait (hevent.trans hwait)

theorem closesEmpty_of_ended (hlimit : ¬ Overlong p) (hframed : Framed p) (h : .pasteEnd ∈ (tokens p).1) :
    ClosesEmpty p := by
  obtain ⟨last, hscans, -, -⟩ := tokens_scans p
  obtain ⟨a, b, hts, hend⟩ := eq_append_cons_of_mem h
  have htake : (tokens p).1.take a.length = a := by rw [hts]; exact take_left' rfl
  have hdrop : (tokens p).1.drop a.length = .pasteEnd :: b := by rw [hts]; exact drop_left' rfl
  obtain ⟨left, hbefore, hafter⟩ := hscans.split a.length
  rw [htake] at hbefore
  rw [hdrop] at hafter
  have hwithin : ∀ m, utf8Len (sinceStart (a.take m)) ≤ PASTE_LIMIT := by
    have hall := within_of_not_overlong hlimit (n := a.length) (by rwa [htake])
    rwa [htake] at hall
  cases hafter with
  | @cons _ rest _ _ _ head tail =>
    by_cases htext : sinceStart a = []
    · refine ⟨a, left, rest, hbefore, head, hend, htext, ?_⟩
      by_contra hshort
      obtain ⟨taken, hp⟩ := hbefore.suffix
      exact not_framed_of_wait hp ⟨left, _, head, rfl⟩ hbefore hend hwithin htext
        (Nat.lt_of_not_le hshort) hframed
    · -- the paste is delivered with some of its bytes left
      exfalso
      let reads := [PASTE_START ++ (p ++ (PASTE_END ++ []))]
      have hreads : ∀ chunk ∈ reads, chunk ≠ [] := by
        intro chunk hchunk
        rw [mem_singleton.mp hchunk]
        exact nofun
      have hbytes : reads.flatten = PASTE_START ++ (p ++ (PASTE_END ++ [])) :=
        flatten_singleton
      obtain ⟨n, r, -, hevent, hr, -⟩ := body_run hreads hbytes hbefore hend hwithin
      obtain ⟨r', hrun, -, hleft⟩ := end_step (n := n + 1) hr head htext
      have hne : pasteText p ≠ [] := by
        rw [← htake] at htext
        exact pasteText_ne_nil htext
      obtain ⟨fresh, -, hnone, hdelivered⟩ := hframed [] reads hreads hbytes
      rw [if_neg hne, hevent, hrun] at hdelivered
      simp only [EStateM.Result.ok.injEq] at hdelivered
      rw [← hdelivered.2, hleft] at hnone
      simp [PASTE_END] at hnone

/-- The paste ends inside a sequence. -/
theorem not_framed_of_cut (hlimit : ¬ Overlong p) (hend : .pasteEnd ∉ (tokens p).1)
    (hcut : (tokens p).2 = true) : ¬ Framed p := by
  intro hframed
  obtain ⟨rest, hscans, hnone, hrest⟩ := tokens_scans p
  have hwithin : ∀ k, utf8Len (sinceStart ((tokens p).1.take k)) ≤ PASTE_LIMIT := fun k =>
    Nat.le_of_not_lt fun hover =>
      hlimit ⟨k, fun hmem => hend (mem_of_mem_take hmem), hover⟩
  let reads := [PASTE_START ++ (p ++ (PASTE_END ++ [0x61]))]
  have hreads : ∀ chunk ∈ reads, chunk ≠ [] := by
    intro chunk hchunk
    rw [mem_singleton.mp hchunk]
    exact nofun
  have hbytes : reads.flatten = PASTE_START ++ (p ++ (PASTE_END ++ [0x61])) :=
    flatten_singleton
  obtain ⟨n, r, hrounds, hevent, hr, -⟩ := body_run hreads hbytes hscans hend hwithin
  -- the escape of the marker is taken
  obtain ⟨token, hscan, htext, hstart, hnoend⟩ := scanToken_cut hnone (hrest.mp hcut)
  have hsplit : rest ++ (PASTE_END ++ [0x61]) =
      (rest ++ [ESC]) ++ [0x5b, 0x32, 0x30, 0x31, 0x7e, 0x61] := by
    rw [append_assoc]
    rfl
  rw [hsplit] at hr
  have hsame : extend (sinceStart (tokens p).1) token = sinceStart (tokens p).1 := by
    cases token with
    | pasteStart => exact absurd rfl hstart
    | key key => exact (congrArg _ htext).trans (append_nil _)
    | nothing => exact append_nil _
    | pasteEnd => exact absurd rfl hnoend
  have hall := hwithin (tokens p).1.length
  rw [take_length] at hall
  obtain ⟨r', hstep, hr', -⟩ := paste_step (n := n + 1) hr hscan hnoend (by rwa [hsame])
  rw [hsame, nil_append] at hr'
  -- what is left of it is text
  have hscans' : ∃ ts, Scans [0x5b, 0x32, 0x30, 0x31, 0x7e, 0x61] ts [] ∧ .pasteEnd ∉ ts ∧
      ts.length = 6 :=
    ⟨_, .cons rfl (.cons rfl (.cons rfl (.cons rfl (.cons rfl (.cons rfl (.nil _)))))),
      by decide, rfl⟩
  obtain ⟨ts, hts, hends, hlength⟩ := hscans'
  obtain ⟨m, hm⟩ : ∃ m, n + 1 = m + ts.length + 2 :=
    ⟨n - 7, by simp only [length_append, PASTE_END, length_cons, length_nil] at hrounds; omega⟩
  obtain ⟨r'', hwait⟩ := stuck_run (n := m) hts hr' hends hall (by decide)
  rw [← hm] at hwait
  exact (hframed [0x61] reads hreads hbytes).no_wait (hevent.trans (hstep.trans hwait))

theorem whole_of_framed (hlimit : ¬ Overlong p) (hend : .pasteEnd ∉ (tokens p).1)
    (hframed : Framed p) : Whole p := by
  have hcut : (tokens p).2 = false := by
    by_contra hcut
    exact not_framed_of_cut hlimit hend (by simpa using hcut) hframed
  obtain ⟨rest, hscans, -, hrest⟩ := tokens_scans p
  have hnil : rest = [] := by
    by_contra hne
    rw [hrest.mpr hne] at hcut
    cases hcut
  subst hnil
  have hwithin : ∀ k, utf8Len (sinceStart ((tokens p).1.take k)) ≤ PASTE_LIMIT := fun k =>
    Nat.le_of_not_lt fun hover =>
      hlimit ⟨k, fun hmem => hend (mem_of_mem_take hmem), hover⟩
  have hscan : scanToken PASTE_END = some (.pasteEnd, []) := by decide
  have htext : sinceStart (tokens p).1 ≠ [] := fun hnone =>
    not_framed_of_wait (append_nil p).symm ⟨PASTE_END, [0x61], hscan, rfl⟩ hscans hend hwithin
      hnone (by decide) hframed
  have hne : pasteText p ≠ [] := by
    rw [← take_length (l := (tokens p).1)] at htext
    exact pasteText_ne_nil htext
  refine ⟨hcut, hend, ?_, hne⟩
  -- the text delivered is the text of the paste
  let reads := [PASTE_START ++ (p ++ (PASTE_END ++ []))]
  have hreads : ∀ chunk ∈ reads, chunk ≠ [] := by
    intro chunk hchunk
    rw [mem_singleton.mp hchunk]
    exact nofun
  have hbytes : reads.flatten = PASTE_START ++ (p ++ (PASTE_END ++ [])) := flatten_singleton
  obtain ⟨n, r, -, hevent, hr, -⟩ := body_run hreads hbytes hscans hend hwithin
  rw [nil_append] at hr
  obtain ⟨r', hrun, -, -⟩ := end_step (n := n + 1) hr hscan htext
  obtain ⟨fresh, -, -, hdelivered⟩ := hframed [] reads hreads hbytes
  rw [if_neg hne, hevent, hrun, pasteEvent] at hdelivered
  split at hdelivered
  · simp only [EStateM.Result.ok.injEq, InputEvent.Paste.injEq] at hdelivered
    exact hdelivered.1
  · cases hdelivered

/-! ## Framed pastes -/

end Ish.Input
