import Mathlib.Data.Set.Function
import Ish.Denv.Session
import Ish.Lib.Trail

/-!
# Only trusted files are used

A history is any sequence of denv commands and refreshes, with anything else in
between: edits, directory changes, changes of variables, new sessions, and trust
that an earlier version of denv gave under its own names. The allow directory is
accounted for by the log: a file in it that could match some contents stands for an
allow of these contents that no deny has followed.
-/

namespace Ish.Denv

open Ish.Epsh Ish.Lib EState List Function

variable {W : Type}

/-! ## Histories -/

inductive Step (W : Type) where
  /-- Whatever is not denv's: all but the allow directory. -/
  | outside (world : W) (record : Option ShellBytes) (session : Session) (cwd : Path)
      (vars : Variables)
  /-- `denv allow` of a version that named trust files by their paths. -/
  | legacyAllow (path : Path) (bytes : ShellBytes)
  | command (args : List Text)
  /-- `on_startup` and `on_cd` -/
  | refresh

def Step.run (host : Host W) (m : Machine W) : Step W → Machine W
  | outside world record session cwd vars => { m with world, record, session, cwd, vars }
  | legacyAllow path bytes =>
    { m with
      allow := Function.update m.allow (legacyTrustKey path)
        (some (ShellBytes.ofText (Sha256.hexDigest bytes)))
      log := m.log ++ [.allowed path bytes] }
  | command args => (Denv.command host args m).2
  | refresh => after (Denv.refresh host false m)

def runHistory (host : Host W) (history : List (Step W)) (m : Machine W) : Machine W :=
  history.foldl (Step.run host) m

/-! ## What the log says -/

/-- These bytes were allowed at this path, and the path was not denied since. -/
def Standing (path : Path) (bytes : ShellBytes) (log : List Event) : Prop :=
  Trail.Since (· = .denied path) (· = .allowed path bytes) log

/-- The last refresh to look at files has found these. -/
def Looked (files : List TrustCandidate) (log : List Event) : Prop :=
  Trail.Since (fun e => ∃ files, e = .looked files) (· = .looked files) log

/-- Used files are all those that were found, and each is allowed. -/
def Trusted (log : List Event) (event : Event) : Prop :=
  ∀ files, event = .used files →
    Looked files log ∧ ∀ file ∈ files, Standing file.path file.bytes log

def TrustCandidate.contents (file : TrustCandidate) : List (List UInt8) := [file.path, file.bytes]

/-- The paths and file contents that an event is about. -/
def Event.contents : Event → List (List UInt8)
  | looked files | used files => files.flatMap TrustCandidate.contents
  | allowed path bytes => [path, bytes]
  | denied path => [path]

/-- The contents involved in a history. -/
def involved (log : List Event) : Set (List UInt8) :=
  {content | ∃ event ∈ log, content ∈ event.contents}

/-! ## Trust, up to digests -/

/-- Allowed, as far as digests tell. -/
def Vouched (file : TrustCandidate) (log : List Event) : Prop :=
  ∃ path bytes, Sha256.hexDigest path = Sha256.hexDigest file.path ∧
    Sha256.hexDigest bytes = Sha256.hexDigest file.bytes ∧ Standing path bytes log

def Orderly (log : List Event) (event : Event) : Prop :=
  ∀ files, event = .used files → Looked files log ∧ ∀ file ∈ files, Vouched file log

/-- A trust file that matches some bytes stands for an allow. -/
def Accounted (allow : Text → Option ShellBytes) (log : List Event) : Prop :=
  ∀ key content text bytes, allow key = some content → asUtf8Str content = some text →
    Text.trim text = Sha256.hexDigest bytes →
      ∃ path bytes', (key = trustKey path ∨ key = legacyTrustKey path) ∧
        Sha256.hexDigest bytes' = Sha256.hexDigest bytes ∧ Standing path bytes' log

/-! ## Names of trust files -/

theorem legacyTrustKey_injective
    (h : legacyTrustKey path = legacyTrustKey other) : path = other := by
  have hdecode := congrArg decodeHex h
  rw [legacyTrustKey, legacyTrustKey, decodeHex_writeHex, decodeHex_writeHex] at hdecode
  exact Except.ok.inj hdecode

theorem legacyTrustKey_ne_trustKey (path other : Path) : legacyTrustKey path ≠ trustKey other := by
  intro h
  have hstart : TRUST_PREFIX = ['s'] ++ ['h', 'a', '2', '5', '6', '-'] := by decide
  have hfirst : Utf8.encode ['s'] = [0x73] := by decide
  have hdigit : hexDigit 0x73 = none := by decide
  -- no trust file of the new kind has a name that decodes
  have hdecode : decodeHex (trustKey other) = .ok path := by rw [← h, legacyTrustKey, decodeHex_writeHex]
  rw [decodeHex, trustKey, hstart, append_assoc, Utf8.encode_append, hfirst] at hdecode
  cases hrest : Utf8.encode (['h', 'a', '2', '5', '6', '-'] ++ Sha256.hexDigest other) with
  | nil => rw [hrest] at hdecode; cases hdecode
  | cons byte rest =>
    rw [hrest, singleton_append, decodePairs, hdigit] at hdecode
    cases hdecode

theorem hexDigest_of_trustKey (h : trustKey path = trustKey other) :
    Sha256.hexDigest path = Sha256.hexDigest other := by
  rw [trustKey, trustKey] at h
  exact append_cancel_left h

/-! ## Changes of the allow directory -/

section Accounting

variable {allow : Text → Option ShellBytes} {log : List Event}

theorem Standing.snoc
    (h : Standing path bytes log) (hevent : event ≠ .denied path) :
    Standing path bytes (log ++ [event]) := Trail.Since.snoc h hevent

theorem Accounted.snoc (h : Accounted allow log)
    (hevent : ∀ path, event ≠ .denied path) : Accounted allow (log ++ [event]) := by
  intro key content text bytes hcontent htext htrim
  obtain ⟨path, bytes', hkey, hdigest, hstanding⟩ := h key content text bytes hcontent htext htrim
  exact ⟨path, bytes', hkey, hdigest, hstanding.snoc (hevent path)⟩

theorem Accounted.remove (h : Accounted allow log) (key : Text) :
    Accounted (Function.update allow key none) log := by
  intro other content text bytes hcontent htext htrim
  by_cases hkey : other = key
  · rw [hkey, update_self] at hcontent
    cases hcontent
  · rw [update_of_ne hkey] at hcontent
    exact h other content text bytes hcontent htext htrim

/-- A trust file written whole. -/
theorem Accounted.write (h : Accounted allow log) (path : Path) (bytes : ShellBytes)
    (hkey : key = trustKey path ∨ key = legacyTrustKey path) :
    Accounted (Function.update allow key (some (ShellBytes.ofText (Sha256.hexDigest bytes))))
      (log ++ [.allowed path bytes]) := by
  intro other content text bytes' hcontent htext htrim
  by_cases hother : other = key
  · rw [hother, update_self, Option.some.injEq] at hcontent
    subst hcontent
    rw [asUtf8Str_ofText, Option.some.injEq] at htext
    subst htext
    have hsame : Text.trim (Sha256.hexDigest bytes) = Sha256.hexDigest bytes :=
      Text.trim_eq_self (by rw [htrim, Sha256.length_hexDigest, Sha256.length_hexDigest])
    exact ⟨path, bytes, by rwa [hother], by rw [← htrim, hsame], Trail.since_marked rfl⟩
  · rw [update_of_ne hother] at hcontent
    exact h.snoc (fun _ heq => by cases heq) other content text bytes' hcontent htext htrim

/-- A trust file cut short matches nothing. -/
theorem Accounted.torn (h : Accounted allow log) (key : Text) (bytes : ShellBytes) (count : Nat) :
    Accounted (Function.update allow key
      (some ((ShellBytes.ofText (Sha256.hexDigest bytes)).dropLast.take count))) log := by
  intro other content text bytes' hcontent htext htrim
  by_cases hother : other = key
  · rw [hother, update_self, Option.some.injEq] at hcontent
    have hlength : text.length ≤ content.length := by
      rw [eq_ofText htext]
      exact Utf8.length_le_length_encode text
    have hcut : content.length ≤ 63 := by
      rw [← hcontent, length_take, length_dropLast, Sha256.length_encode_hexDigest]
      omega
    have htrimmed := Text.length_trim_le text
    rw [htrim, Sha256.length_hexDigest] at htrimmed
    omega
  · rw [update_of_ne hother] at hcontent
    exact h other content text bytes' hcontent htext htrim

theorem Accounted.deny (h : Accounted allow log) (hnew : allow (trustKey path) = none)
    (hlegacy : allow (legacyTrustKey path) = none) : Accounted allow (log ++ [.denied path]) := by
  intro key content text bytes hcontent htext htrim
  obtain ⟨other, bytes', hkey, hdigest, hstanding⟩ := h key content text bytes hcontent htext htrim
  refine ⟨other, bytes', hkey, hdigest, hstanding.snoc fun heq => ?_⟩
  obtain rfl : path = other := Event.denied.inj heq
  rcases hkey with rfl | rfl
  · rw [hnew] at hcontent
    cases hcontent
  · rw [hlegacy] at hcontent
    cases hcontent

/-! ## Reading it -/

/-- The trust file that says a file is allowed. -/
def Listed (allow : Text → Option ShellBytes) (file : TrustCandidate) : Prop :=
  ∃ key content text, (key = trustKey file.path ∨ key = legacyTrustKey file.path) ∧
    allow key = some content ∧ asUtf8Str content = some text ∧ Text.trim text = file.hash

theorem Accounted.vouched (h : Accounted allow log)
    (hlisted : Listed allow file) : Vouched file log := by
  obtain ⟨key, content, text, hkey, hcontent, htext, htrim⟩ := hlisted
  rw [file.hashed] at htrim
  obtain ⟨path, bytes, hpath, hdigest, hstanding⟩ := h key content text _ hcontent htext htrim
  refine ⟨path, bytes, ?_, hdigest, hstanding⟩
  rcases hkey with rfl | rfl <;> rcases hpath with hpath | hpath
  · exact hexDigest_of_trustKey hpath.symm
  · exact absurd hpath.symm (legacyTrustKey_ne_trustKey path file.path)
  · exact absurd hpath (legacyTrustKey_ne_trustKey file.path path)
  · rw [legacyTrustKey_injective hpath]

end Accounting

/-! ## Looking leaves trust alone -/

variable {allow : Text → Option ShellBytes}

theorem readToString_run {host : Host W} (h : (readToString host allow key w).1 = some (some text)) :
    ∃ content, allow key = some content ∧ asUtf8Str content = some text := by
  rw [readToString, bind_run] at h
  split at h
  · cases h
  · cases hcontent : allow key with
    | none =>
      rw [hcontent] at h
      cases h
    | some content =>
      rw [hcontent] at h
      obtain ⟨text', htext, heq⟩ := Option.map_eq_some_iff.mp h
      cases heq
      exact ⟨content, rfl, htext⟩

theorem of_storedMatches {hash stored}
    (h : storedMatches hash stored = true) :
    ∃ text, stored = some (some text) ∧ Text.trim text = hash := by
  rcases stored with - | - | text
  · cases h
  · cases h
  · exact ⟨text, rfl, eq_of_beq h⟩

theorem isAllowedIn_run {host : Host W} {file} (h : (isAllowedIn host allow file w).1 = true) : Listed allow file := by
  rw [isAllowedIn, bind_run] at h
  by_cases hmissing : (readToString host allow (trustKey file.path) w).1 = some none
  · rw [if_pos hmissing, bind_run] at h
    obtain ⟨text, hstored, htrim⟩ := of_storedMatches h
    obtain ⟨content, hcontent, htext⟩ := readToString_run hstored
    exact ⟨_, content, text, .inr rfl, hcontent, htext, htrim⟩
  · rw [if_neg hmissing] at h
    obtain ⟨text, hstored, htrim⟩ := of_storedMatches h
    obtain ⟨content, hcontent, htext⟩ := readToString_run hstored
    exact ⟨_, content, text, .inl rfl, hcontent, htext, htrim⟩

theorem firstBlocked_run {host : Host W} (h : (firstBlocked host allow files w).1 = none) :
    ∀ file ∈ files, Listed allow file := by
  induction files generalizing w with
  | nil => nofun
  | cons file files ih =>
    rw [firstBlocked, bind_run] at h
    split at h
    · next hallowed =>
        intro other hother
        rcases mem_cons.mp hother with rfl | hother
        · exact isAllowedIn_run hallowed
        · exact ih h other hother
    · cases h

/-! ## Triples about a part of the machine -/

/-- Nothing is asked of the rest of the machine. -/
abbrev Any (_ _ : Machine W) : Prop := True

instance : Std.Refl (Any (W := W)) := ⟨fun _ => trivial⟩

instance : IsTrans (Machine W) Any := ⟨fun _ _ _ _ _ => trivial⟩

section Triples

variable {V α : Type} {part : Machine W → V} {P : V → Prop} {F : Text → V → Prop}

theorem acts_call (hpart : ∀ m world, part { m with world } = part m) (x : StateM W α) :
    Acts Any part P (call x) (fun a v => P v ∧ ∃ w, a = (x w).1) F := by
  intro m hm
  exact ⟨trivial, by rwa [hpart], m.world, rfl⟩

theorem acts_ofExcept (x : Except Text α) :
    Acts Any part P (ofExcept x) (fun a v => P v ∧ x = .ok a) (fun _ => P) := by
  intro m hm
  cases x with
  | ok a => exact ⟨trivial, hm, rfl⟩
  | error e => exact ⟨trivial, hm⟩

theorem acts_get : Acts Any part P get (fun m v => P v ∧ v = part m) F :=
  fun _ hm => ⟨trivial, hm, rfl⟩

theorem acts_modify (h : ∀ m, P (part m) → Q (part (f m))) :
    Acts Any part P (modify f) (fun _ => Q) F :=
  fun m hm => ⟨trivial, h m hm⟩

end Triples

/-! ## The books are kept -/

/-- The allow directory and the log. -/
def books (m : Machine W) : (Text → Option ShellBytes) × List Event := (m.allow, m.log)

def Sound (v : (Text → Option ShellBytes) × List Event) : Prop :=
  Accounted v.1 v.2 ∧ Trail.Clean Orderly v.2

variable {v : (Text → Option ShellBytes) × List Event}

theorem Sound.clean_snoc (h : Sound v)
    (hevent : ∀ files, event ≠ .used files) : Trail.Clean Orderly (v.2 ++ [event]) :=
  Trail.Clean.snoc h.2 fun files heq => absurd heq (hevent files)

/-- A computation that keeps the books, whether it fails or not. -/
def Safe {α : Type} (x : DenvM W α) : Prop :=
  Acts Any books Sound x (fun _ => Sound) (fun _ => Sound)

namespace Safe

variable {α β : Type}

theorem pure (a : α) : Safe (W := W) (Pure.pure a) := Acts.pureRule fun _ => id

theorem throw (e : Text) : Safe (W := W) (α := α) (MonadExcept.throw e) := Acts.throwRule fun _ => id

theorem bind {f : α → DenvM W β} (hx : Safe x) (hf : ∀ a, Safe (f a)) :
    Safe (x >>= f) := Acts.bind hx hf

theorem call (x : StateM W α) : Safe (Denv.call x) :=
  (acts_call (fun _ _ => rfl) x).post fun _ _ h => h.1

theorem ofExcept (x : Except Text α) : Safe (W := W) (Denv.ofExcept x) :=
  (acts_ofExcept x).post fun _ _ h => h.1

theorem get : Safe (W := W) MonadState.get := acts_get.post fun _ _ h => h.1

theorem update {f : Machine W → Machine W} (h : ∀ m, books (f m) = books m) :
    Safe (modify f) := acts_modify fun m hm => by rwa [h]

theorem ite {p : Prop} [Decidable p] {x y : DenvM W α} (hx : Safe x) (hy : Safe y) :
    Safe (if p then x else y) := by
  split
  · exact hx
  · exact hy

theorem forM {x : β → DenvM W PUnit} (hx : ∀ b, Safe (x b)) (bs : List β) : Safe (bs.forM x) := by
  induction bs with
  | nil => exact pure _
  | cons b bs ih => exact bind (hx b) fun _ => ih

end Safe

section Functions

variable (host : Host W)

theorem unlessFails_safe (context : Text) (fault : Option Text) :
    Safe (W := W) (unlessFails context fault) := by
  cases fault with
  | none => exact .pure _
  | some error => exact .throw _

theorem currentDirFromStore_safe : Safe (W := W) currentDirFromStore :=
  .bind .get fun _ => .ite (.pure _) (.throw _)

/-! ### Allowing and denying -/

theorem allowFileIn_safe (file : TrustCandidate) : Safe (allowFileIn host file) := by
  refine .bind (.call _) fun fault => .bind (unlessFails_safe _ fault) fun _ => ?_
  refine .bind (.call _) fun ending => ?_
  cases ending with
  | done =>
    -- the trust file and its event come together
    refine acts_modify (f := fun m =>
      { m with
        allow := Function.update m.allow (trustKey file.path) (some (ShellBytes.ofText file.hash))
        log := m.log ++ [.allowed file.path file.bytes] }) fun m hm => ⟨?_, hm.clean_snoc nofun⟩
    rw [books, file.hashed]
    exact hm.1.write file.path file.bytes (.inl rfl)
  | refused error => exact .throw _
  | torn count error =>
    refine .bind (acts_modify fun m hm => ⟨?_, hm.2⟩) fun _ => .throw _
    rw [books, file.hashed]
    exact hm.1.torn (trustKey file.path) file.bytes count

/-- The books are kept, and these trust files are gone. -/
def Gone (keys : List Text) (v : (Text → Option ShellBytes) × List Event) : Prop :=
  Sound v ∧ ∀ key ∈ keys, v.1 key = none

theorem Gone.remove {keys}
    (h : Gone keys v) (key : Text) : Gone (key :: keys) (Function.update v.1 key none, v.2) := by
  refine ⟨⟨h.1.1.remove key, h.1.2⟩, fun other hother => ?_⟩
  by_cases heq : other = key
  · exact heq ▸ update_self other none v.1
  · exact (update_of_ne heq none v.1).trans
      (h.2 other ((mem_cons.mp hother).resolve_left heq))

theorem Gone.absent {keys}
    (h : Gone keys v) (hkey : v.1 key = none) : Gone (key :: keys) v := by
  refine ⟨h.1, fun other hother => ?_⟩
  rcases mem_cons.mp hother with rfl | hother
  · exact hkey
  · exact h.2 other hother

/-- What a removal leaves: the file is gone, unless the call failed otherwise. -/
def Removed (key : Text) (keys : List Text) :
    Except RemoveError Unit → (Text → Option ShellBytes) × List Event → Prop
  | .error (.other _) => Gone keys
  | _ => Gone (key :: keys)

theorem removeTrust_acts (key : Text) (keys : List Text) :
    Acts Any books (Gone keys) (removeTrust host key) (Removed key keys) (fun _ => Sound) := by
  refine .bind (acts_call (fun _ _ => rfl) _) fun fault => ?_
  cases fault with
  | some error => exact Acts.pureRule fun v hv => hv.1
  | none =>
    refine .bind acts_get fun m => ?_
    cases hkey : m.allow key with
    | some content =>
      refine .bind (acts_modify (Q := Gone (key :: keys)) fun m hm => hm.1.1.remove key)
        fun _ => Acts.pureRule fun v hv => hv
    | none =>
      refine Acts.pre (P := Gone (key :: keys)) ?_ ?_
      · refine .bind (acts_call (fun _ _ => rfl) _) fun long => ?_
        split
        · exact Acts.pureRule fun v hv => hv.1
        · exact Acts.pureRule fun v hv => hv.1
      · rintro v ⟨⟨hv, -⟩, rfl⟩
        exact hv.absent hkey

theorem denyKey_acts (key : Text) (legacy : Bool) (keys : List Text) :
    Acts Any books (Gone keys) (denyKey host key legacy) (fun _ => Gone (key :: keys))
      (fun _ => Sound) := by
  refine .bind (removeTrust_acts host key keys) fun result => ?_
  rcases result with (- | - | error) | -
  · exact Acts.pureRule fun v hv => hv
  · cases legacy with
    | true => exact Acts.pureRule fun v hv => hv
    | false => exact Acts.throwRule fun v hv => hv.1
  · exact Acts.throwRule fun v hv => hv.1
  · exact Acts.pureRule fun v hv => hv

theorem denyFile_safe (path : Path) : Safe (denyFile host path) := by
  refine Acts.bind ((denyKey_acts host _ true []).pre fun v hv => ⟨hv, nofun⟩) fun _ => ?_
  refine .bind (denyKey_acts host _ false _) fun _ => acts_modify fun m hm => ?_
  refine ⟨hm.1.1.deny (hm.2 _ ?_) (hm.2 _ ?_), hm.1.clean_snoc nofun⟩
  · exact mem_cons_self
  · exact mem_cons_of_mem _ mem_cons_self

/-! ### Looking and using -/

/-- These are the files found last, and each is allowed, as far as digests tell. -/
def Ready (files : List TrustCandidate) (log : List Event) : Prop :=
  Looked files log ∧ ∀ file ∈ files, Vouched file log

theorem Ready.use (h : Ready files log) :
    Ready files (log ++ [.used used]) := by
  refine ⟨Trail.Since.snoc h.1 nofun, fun file hfile => ?_⟩
  obtain ⟨path, bytes, hpath, hbytes, hstanding⟩ := h.2 file hfile
  exact ⟨path, bytes, hpath, hbytes, hstanding.snoc nofun⟩

/-- The books are kept, and files that are not blocked are ready. -/
def Cleared (blocked : Option TrustCandidate) (files : List TrustCandidate)
    (v : (Text → Option ShellBytes) × List Event) : Prop :=
  Sound v ∧ (blocked = none → Ready files v.2)

theorem use_acts (files : List TrustCandidate) :
    Acts Any (books (W := W)) (Cleared none files) (note (.used files))
      (fun _ => Cleared none files) (fun _ => Sound) := by
  refine acts_modify fun m hm => ⟨⟨hm.1.1.snoc nofun, ?_⟩, fun _ => (hm.2 rfl).use⟩
  exact Trail.Clean.snoc hm.1.2 fun used hused => Event.used.inj hused ▸ hm.2 rfl

theorem dotenvEntries_acts (files : List TrustCandidate) (blocked dotenv_file : Option TrustCandidate) :
    Acts Any books (Cleared blocked files) (dotenvEntries host files blocked dotenv_file)
      (fun _ => Cleared blocked files) (fun _ => Sound) := by
  cases blocked with
  | some file => exact Acts.pureRule fun v hv => hv
  | none =>
    cases dotenv_file with
    | none => exact Acts.pureRule fun v hv => hv
    | some file =>
      refine .bind (use_acts files) fun _ => ?_
      exact (acts_ofExcept _).weaken (fun v hv => hv) (fun _ v hv => hv.1) fun _ v hv => hv.1

theorem lookAround_acts :
    Acts Any books Sound (lookAround host) (fun look => Cleared look.blocked look.files)
      (fun _ => Sound) := by
  refine Acts.bind currentDirFromStore_safe fun cwd => ?_
  refine Acts.bind (Safe.call _) fun found => ?_
  refine Acts.bind (Safe.call _) fun envrc => Acts.bind (Safe.ofExcept envrc) fun envrc_file => ?_
  refine Acts.bind (Safe.call _) fun dotenv => Acts.bind (Safe.ofExcept dotenv) fun dotenv_file => ?_
  let files := envrc_file.toList ++ dotenv_file.toList
  have hlook : Acts Any (books (W := W)) Sound (note (.looked files))
      (fun _ v => Sound v ∧ Looked files v.2) (fun _ => Sound) :=
    acts_modify fun m hm =>
      ⟨⟨hm.1.snoc nofun, hm.clean_snoc nofun⟩, Trail.since_marked rfl⟩
  refine .bind hlook fun _ => .bind acts_get fun m => ?_
  refine .bind (acts_call (fun _ _ => rfl) _) fun blocked => ?_
  refine .bind (G := fun look : Look => Cleared look.blocked look.files) ?_
    fun entries => Acts.pureRule fun v hv => hv
  refine (dotenvEntries_acts host files blocked dotenv_file).pre fun v hv => ?_
  obtain ⟨⟨⟨hsound, hlooked⟩, rfl⟩, w, hblocked⟩ := hv
  refine ⟨hsound, fun hnone => ⟨hlooked, fun file hfile => hsound.1.vouched ?_⟩⟩
  exact firstBlocked_run (hblocked.symm.trans hnone) file hfile

theorem leaveDirty_safe (found : EnvFiles) (changes : List EnvChange) :
    Safe (leaveDirty host found changes) :=
  .bind (.call _) fun _ => .pure _

theorem enter_acts (look : Look) (found : EnvFiles) (changes : List EnvChange)
    (working : Variables) :
    Acts Any books (Cleared none look.files) (enter host look found changes working)
      (fun _ => Sound) (fun _ => Sound) := by
  refine .bind (use_acts look.files) fun _ => Acts.pre (P := Sound) ?_ fun v hv => hv.1
  refine Safe.bind (.call _) fun result => ?_
  cases result with
  | error e => exact leaveDirty_safe host found changes
  | ok diff => exact .bind (.call _) fun _ => .pure _

theorem move_acts (look : Look) (active : Option ActiveState) (vars : Variables) :
    Acts Any books (Cleared look.blocked look.files) (move host look active vars)
      (fun _ => Sound) (fun _ => Sound) := by
  have hworking : Acts Any (books (W := W)) (Cleared look.blocked look.files)
      (ofExcept (applyChanges vars (restoration active)))
      (fun _ => Cleared look.blocked look.files) (fun _ => Sound) :=
    (acts_ofExcept _).weaken (fun v hv => hv) (fun _ v hv => hv.1) fun _ v hv => hv.1
  refine .bind hworking fun working => ?_
  cases look.found with
  | none => exact Acts.pureRule fun v hv => hv.1
  | some found =>
    cases hblocked : look.blocked with
    | some file =>
      exact (leaveDirty_safe host found _).pre fun v hv => hv.1
    | none => exact enter_acts host look found _ working

theorem refreshInner_safe (force : Bool) : Safe (refreshInner host force) := by
  refine Acts.bind (lookAround_acts host) fun look => ?_
  refine Acts.bind (acts_get.post fun m v hv => hv.1) fun m => ?_
  refine Acts.bind ((acts_call (fun _ _ => rfl) _).post fun _ v hv => hv.1) fun keep => ?_
  split
  · exact Acts.pureRule fun v hv => hv.1
  · exact move_acts host look _ _

/-! ### The record and the commands -/

theorem loadActive_safe (path : Path) : Safe (loadActive host path) := by
  refine .bind (.call _) fun fault => ?_
  cases fault with
  | some error => exact .pure _
  | none =>
    refine .bind .get fun m => ?_
    cases m.record with
    | none => exact .pure _
    | some content =>
      dsimp only
      cases asUtf8Str content with
      | none => exact .pure _
      | some text =>
        dsimp only
        cases parseActive text with
        | ok state => exact .pure _
        | error e => exact .pure _

theorem clearActive_safe : Safe (clearActive host) :=
  .bind (.call _) fun _ => .bind (unlessFails_safe _ _) fun _ => .update fun _ => rfl

theorem setActive_safe (active : Option ActiveState) : Safe (W := W) (setActive active) :=
  .update fun _ => rfl

theorem loadOnce_safe (force : Bool) (path : Path) : Safe (loadOnce host force path) := by
  refine .bind .get fun m => .ite (.pure _) (.bind (loadActive_safe host path) fun result => ?_)
  rcases result with (message | message) | active
  · exact .throw _
  · cases force with
    | true =>
      exact .bind (clearActive_safe host) fun _ => .bind (setActive_safe _) fun _ =>
        .update fun _ => rfl
    | false => exact .throw _
  · exact .bind (setActive_safe active) fun _ => .update fun _ => rfl

theorem updateRecord_safe (update : RecordUpdate) : Safe (updateRecord host update) := by
  cases update with
  | Keep => exact .pure _
  | Clear => exact .bind (clearActive_safe host) fun _ => setActive_safe _
  | Save state =>
    refine .bind ?_ fun _ => setActive_safe _
    unfold saveActiveFile
    cases saveActive state with
    | error e => exact .throw _
    | ok text =>
      exact .bind (.call _) fun _ => .bind (unlessFails_safe _ _) fun _ => .update fun _ => rfl

theorem transit_safe (force : Bool) : Safe (transit host force) := by
  refine .bind (refreshInner_safe host force) fun transition => .bind .get fun m => ?_
  refine .bind (.ofExcept _) fun candidate => .bind (updateRecord_safe host _) fun _ => ?_
  exact .bind (.update fun _ => rfl) fun _ => .pure _

theorem refresh_safe (force : Bool) : Safe (refresh host force) := by
  refine .bind .get fun m => .bind (.ofExcept _) fun _ => .bind .get fun m' => ?_
  refine .bind (.ofExcept _) fun _ => .bind (loadOnce_safe host force _) fun _ => ?_
  exact transit_safe host force

theorem foundFiles_safe : Safe (foundFiles host) := by
  refine .bind currentDirFromStore_safe fun cwd => .bind (.call _) fun found => ?_
  cases found with
  | none => exact .throw _
  | some found => exact .pure _

theorem allowCurrentDir_safe : Safe (allowCurrentDir host) := by
  refine .bind (foundFiles_safe host) fun paths => .bind (.forM (fun path => ?_) paths) fun _ =>
    refresh_safe host true
  exact .bind (.call _) fun _ => .bind (.ofExcept _) fun file => .bind .get fun m =>
    .bind (.ofExcept _) fun _ => allowFileIn_safe host file

theorem denyCurrentDir_safe : Safe (denyCurrentDir host) := by
  refine .bind (foundFiles_safe host) fun paths => .bind (.forM (fun path => ?_) paths) fun _ =>
    refresh_safe host true
  exact .bind .get fun m => .bind (.ofExcept _) fun _ => .bind (.call _) fun path =>
    denyFile_safe host path

theorem runCommand_safe (args : List Text) : Safe (runCommand host args) :=
  .ite (allowCurrentDir_safe host) (.ite (denyCurrentDir_safe host)
    (.ite (refresh_safe host true) (.throw _)))

theorem Safe.after {α : Type} {x : DenvM W α} (h : Safe x) (hm : Sound (books m)) :
    Sound (books (EState.after (x m))) := by
  have hx := h m hm
  cases hr : x m with
  | ok a t | error e t =>
    rw [hr] at hx
    exact hx.2

theorem command_sound (args : List Text) {m : Machine W} (hm : Sound (books m)) :
    Sound (books (command host args m).2) := by
  have hrun := (runCommand_safe host args).after hm
  rw [command]
  cases hr : runCommand host args m with
  | ok changes t | error e t =>
    rw [hr] at hrun
    exact hrun

end Functions

/-! ## Histories -/

theorem Step.run_sound (host : Host W) (step : Step W) {m : Machine W} (hm : Sound (books m)) :
    Sound (books (Step.run host m step)) := by
  cases step with
  | outside world record session cwd vars => exact hm
  | legacyAllow path bytes =>
    exact ⟨hm.1.write path bytes (.inr rfl), hm.clean_snoc nofun⟩
  | command args => exact command_sound host args hm
  | refresh => exact (refresh_safe host false).after hm

theorem runHistory_sound (host : Host W) (history : List (Step W))
    (hm : Sound (books m)) : Sound (books (runHistory host history m)) := by
  induction history generalizing m with
  | nil => exact hm
  | cons step history ih => exact ih (step.run_sound host hm)

/-! ## Changes without a use -/

/-- The log and the active record. -/
def course (m : Machine W) : List Event × Option ActiveState := (m.log, m.session.active)

/-- The log has grown by `events`, and the record is still the one at the start. -/
def Grown (start : Machine W) (v : List Event × Option ActiveState) : Prop :=
  v.2 = start.session.active ∧ ∃ events, v.1 = start.log ++ events

/-- The changes only restore the old project and set denv's own variables. -/
def Unused (active : Option ActiveState) (changes : List EnvChange) : Prop :=
  ∀ change ∈ changes, change ∈ restoration active ∨ change.name ∈ OWN_NAMES

/-- Files were used, or the changes come from none. -/
def Accounts (start : Machine W) (changes : List EnvChange)
    (v : List Event × Option ActiveState) : Prop :=
  ∃ events, v.1 = start.log ++ events ∧
    ((∃ files, .used files ∈ events) ∨ Unused start.session.active changes)

theorem Grown.snoc {start : Machine W} {v} (h : Grown start v)
    (event : Event) : Grown start (v.1 ++ [event], v.2) := by
  obtain ⟨hactive, events, hlog⟩ := h
  exact ⟨hactive, events ++ [event], by rw [hlog, append_assoc]⟩

theorem Grown.accounts {start : Machine W} {v}
    (h : Grown start v) (hchanges : Unused start.session.active changes) :
    Accounts start changes v := by
  obtain ⟨-, events, hlog⟩ := h
  exact ⟨events, hlog, .inr hchanges⟩

theorem unused_append
    (hown : ∀ change ∈ own, change.name ∈ OWN_NAMES) :
    Unused active (restoration active ++ own) := by
  intro change hchange
  rcases mem_append.mp hchange with hchange | hchange
  · exact .inl hchange
  · exact .inr (hown change hchange)

section Changes

variable (host : Host W) (start : Machine W)

/-- A computation that may add to the log. -/
def Grows {α : Type} (x : DenvM W α) : Prop :=
  Acts Any course (Grown start) x (fun _ => Grown start) (fun _ _ => True)

theorem grows_call {α : Type} (x : StateM W α) : Grows start (call x) :=
  (acts_call (fun _ _ => rfl) x).post fun _ _ h => h.1

theorem grows_ofExcept {α : Type} (x : Except Text α) : Grows start (ofExcept x) :=
  (acts_ofExcept x).weaken (fun _ h => h) (fun _ _ h => h.1) fun _ _ _ => trivial

theorem grows_note (event : Event) : Grows start (note event) :=
  acts_modify fun m hm => hm.snoc event

theorem lookAround_grows : Grows start (lookAround host) := by
  have hcwd : Grows start (W := W) currentDirFromStore := by
    refine Acts.bind (acts_get.post fun _ v hv => hv.1) fun _ => ?_
    dsimp only
    split
    · exact Acts.pureRule fun v hv => hv
    · exact Acts.throwRule fun v hv => trivial
  have hentries : ∀ files blocked dotenv_file,
      Grows start (dotenvEntries host files blocked dotenv_file) := by
    intro files blocked dotenv_file
    cases blocked with
    | some file => exact Acts.pureRule fun v hv => hv
    | none =>
      cases dotenv_file with
      | none => exact Acts.pureRule fun v hv => hv
      | some file => exact Acts.bind (grows_note start _) fun _ => grows_ofExcept start _
  refine Acts.bind hcwd fun cwd => Acts.bind (grows_call start _) fun found => ?_
  refine Acts.bind (grows_call start _) fun envrc => Acts.bind (grows_ofExcept start _) fun _ => ?_
  refine Acts.bind (grows_call start _) fun dotenv => Acts.bind (grows_ofExcept start _) fun _ => ?_
  refine Acts.bind (grows_note start _) fun _ => ?_
  refine Acts.bind (acts_get.post fun _ v hv => hv.1) fun m => ?_
  refine Acts.bind (grows_call start _) fun blocked => Acts.bind (hentries _ _ _) fun entries => ?_
  exact Acts.pureRule fun v hv => hv

theorem move_accounts (look : Look) (vars : Variables) :
    Acts Any course (Grown start) (move host look start.session.active vars)
      (fun transition => Accounts start transition.changes) (fun _ _ => True) := by
  have hdirty : ∀ dir, ∀ change ∈ dirtyState dir, change.name ∈ OWN_NAMES := by
    intro dir change hchange
    simp only [dirtyState, mem_cons, not_mem_nil, or_false] at hchange
    rcases hchange with rfl | rfl | rfl <;> simp [EnvChange.name, OWN_NAMES]
  have hclear : ∀ change ∈ clearRuntimeState, change.name ∈ OWN_NAMES := by
    intro change hchange
    simp only [clearRuntimeState, mem_cons, not_mem_nil, or_false] at hchange
    rcases hchange with rfl | rfl | rfl <;> simp [EnvChange.name, OWN_NAMES]
  refine Acts.bind (grows_ofExcept start _) fun working => ?_
  cases look.found with
  | none => exact Acts.pureRule fun v hv => hv.accounts (unused_append hclear)
  | some found =>
    cases look.blocked with
    | some file =>
      refine Acts.bind (grows_call start _) fun dir => Acts.pureRule fun v hv => ?_
      exact hv.accounts (unused_append (hdirty dir))
    | none =>
      -- from the note on, the log shows the use, whatever changes
      let Used := fun v : List Event × Option ActiveState =>
        ∀ changes, Accounts start changes v
      have hnote : Acts Any (course (W := W)) (Grown start) (note (.used look.files))
          (fun _ => Used) (fun _ _ => True) :=
        acts_modify fun m hm changes => by
          obtain ⟨-, events, hlog⟩ := hm
          refine ⟨events ++ [.used look.files], ?_, .inl ⟨look.files, by simp⟩⟩
          exact (congrArg (· ++ [Event.used look.files]) hlog).trans (append_assoc _ _ _)
      refine Acts.bind hnote fun _ => ?_
      refine Acts.bind ((acts_call (fun _ _ => rfl) _).post fun _ v hv => hv.1) fun result => ?_
      have hdir : ∀ (path : Path) (f : Path → Transition),
          Acts Any (course (W := W)) Used (do return f (← call (canonicalizeFallback host path)))
            (fun transition => Accounts start transition.changes) (fun _ _ => True) :=
        fun path f => Acts.bind (acts_call (fun _ _ => rfl) _) fun dir =>
          Acts.pureRule fun v hv => hv.1 _
      cases result with
      | error e => exact hdir _ _
      | ok diff => exact hdir _ _

/-- **Without a use, nothing is set from the files**: a transition whose refresh used
none restores the old project and sets denv's own variables. -/
theorem refreshInner_accounts {force transition stop}
    (h : refreshInner host force start = .ok transition stop) :
    ∃ events, stop.log = start.log ++ events ∧
      ((∃ files, .used files ∈ events) ∨ Unused start.session.active transition.changes) := by
  have hacts : Acts Any course (Grown start) (refreshInner host force)
      (fun transition => Accounts start transition.changes) (fun _ _ => True) := by
    refine Acts.bind (lookAround_grows host start) fun look => ?_
    refine Acts.bind acts_get fun m => ?_
    refine Acts.bind ((acts_call (fun _ _ => rfl) _).post fun _ v hv => hv.1) fun keep => ?_
    split
    · exact Acts.pureRule fun v hv => hv.1.accounts fun _ hchange => absurd hchange (by simp)
    · refine fun s hs => ?_
      have hactive : m.session.active = start.session.active := by
        rw [← hs.1.1, hs.2]
        rfl
      rw [hactive]
      exact move_accounts host start look m.vars s hs.1
  have hstart : Grown start (course start) := ⟨rfl, [], (append_nil _).symm⟩
  have hstop := hacts start hstart
  rw [h] at hstop
  exact hstop.2

end Changes

/-! ## Only trusted bytes are used -/

theorem mem_involved {log before after event}
    (hlog : log = before ++ event :: after)
    (hcontent : content ∈ event.contents) : content ∈ involved log :=
  ⟨event, by rw [hlog]; simp, hcontent⟩

theorem Vouched.standing {file log before after} (h : Vouched file before)
    (hlog : log = before ++ .used files :: after) (hfile : file ∈ files)
    (hinjective : Set.InjOn Sha256.hexDigest (involved log)) :
    Standing file.path file.bytes before := by
  obtain ⟨path, bytes, hpath, hbytes, pre, event, post, hbefore, rfl, hpost⟩ := h
  have hallowed : log = pre ++ Event.allowed path bytes :: (post ++ .used files :: after) := by
    rw [hlog, hbefore, append_assoc, cons_append]
  have hcontents : ∀ content ∈ file.contents, content ∈ (Event.used files).contents :=
    fun content hcontent => mem_flatMap.mpr ⟨file, hfile, hcontent⟩
  obtain rfl : path = file.path := hinjective (mem_involved hallowed (by simp [Event.contents]))
    (mem_involved hlog (hcontents _ (by simp [TrustCandidate.contents]))) hpath
  obtain rfl : bytes = file.bytes := hinjective (mem_involved hallowed (by simp [Event.contents]))
    (mem_involved hlog (hcontents _ (by simp [TrustCandidate.contents]))) hbytes
  exact ⟨pre, _, post, hbefore, rfl, hpost⟩

/-- **Only trusted bytes are used**: in every history that starts without trust,
whenever files are used they are all that the refresh has found, and each was allowed
at its path with the very bytes that are used, and not denied since. A refresh that
uses none sets no variable from them. -/
theorem trusted_bytes_only (host : Host W) (start : Machine W) (history : List (Step W))
    (hallow : ∀ key, start.allow key = none) (hlog : start.log = [])
    (hinjective : Set.InjOn Sha256.hexDigest (involved (runHistory host history start).log)) :
    Trail.Clean Trusted (runHistory host history start).log ∧
      ∀ force m transition stop, refreshInner host force m = .ok transition stop →
        ∃ events, stop.log = m.log ++ events ∧
          ((∃ files, .used files ∈ events) ∨ Unused m.session.active transition.changes) := by
  have hstart : Sound (books start) := by
    rw [Sound, books, hlog]
    refine ⟨fun key content text bytes hcontent => ?_, Trail.clean_nil⟩
    exact absurd ((hallow key).symm.trans hcontent) nofun
  have hsound := runHistory_sound host history hstart
  refine ⟨fun before event after hsplit files hused => ?_, fun force m transition stop h =>
    refreshInner_accounts host m h⟩
  subst hused
  obtain ⟨hlooked, hvouched⟩ := hsound.2 before _ after hsplit files rfl
  exact ⟨hlooked, fun file hfile => (hvouched file hfile).standing hsplit hfile hinjective⟩

/-- `denv allow` in `/a`, whose `.envrc` holds its own path. -/
theorem trusted_bytes_only_allow :
    let file := ShellBytes.ofText "/a/.envrc".toList
    let stop := runHistory (.still [(file, file)] fun _ _ => .error []) [.command ["allow".toList]] (.fresh [0x2F, 0x61])
    stop.log.any (· matches .used _) = true ∧ Trail.Clean Trusted stop.log := by
  intro file stop
  have hcontents : ∀ content ∈ stop.log.flatMap Event.contents, content = file := by
    decide +kernel
  refine ⟨by decide +kernel, (trusted_bytes_only _ _ [.command ["allow".toList]] (fun _ => rfl) rfl
    fun content hcontent other hother _ => ?_).1⟩
  obtain ⟨event, hevent, hcontent⟩ := hcontent
  obtain ⟨event', hevent', hother⟩ := hother
  rw [hcontents content (mem_flatMap.mpr ⟨event, hevent, hcontent⟩),
    hcontents other (mem_flatMap.mpr ⟨event', hevent', hother⟩)]

end Ish.Denv
