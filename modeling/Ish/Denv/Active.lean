import Ish.Denv.Change
import Ish.Lib.Text
import Ish.Lib.Result

/-!
# The active record

The model of `save_active` and `parse_active` in `src/denv.rs`: the text that
keeps a project's saved bindings between runs. A path is its bytes. The file
itself (its temporary name and the rename) is not part of the text.
-/

namespace Ish.Denv

open Ish.Epsh Ish.Lib List

def ACTIVE_FORMAT_HEADER : Text := "DENV-ACTIVE 2".toList

structure ActiveState where
  dir : ShellBytes
  envrc_mtime : UInt64
  dotenv_mtime : UInt64
  prev : List PrevVar
deriving DecidableEq

/-- The errors of reading; the unsupported header is shown in its `Debug` form. -/
inductive ActiveError where
  | message (text : String)
  | unsupportedFormat (header : Text)
deriving DecidableEq

def ok_or {α : Type} (error : String) : Option α → Except ActiveError α
  | some a => .ok a
  | none => .error (.message error)

/-! ## Hexadecimal fields -/

/-- `{byte:02x}` -/
def hexByte (byte : UInt8) : Text :=
  [Nat.digitChar (byte.toNat / 16), Nat.digitChar (byte.toNat % 16)]

def writeHex (bytes : List UInt8) : Text := bytes.flatMap hexByte

def hexDigit (byte : UInt8) : Option UInt8 :=
  if 0x30 ≤ byte ∧ byte ≤ 0x39 then some (byte - 0x30)
  else if 0x61 ≤ byte ∧ byte ≤ 0x66 then some (byte - 0x61 + 10)
  else none

def HEX_ERROR : String := "invalid project path encoding"

/-- `as_chunks::<2>`, each pair decoded; an odd byte left over is an error. -/
def decodePairs : List UInt8 → Except ActiveError (List UInt8)
  | [] => .ok []
  | [_] => .error (.message HEX_ERROR)
  | high :: low :: pairs => do
    let high ← ok_or HEX_ERROR (hexDigit high)
    let low ← ok_or HEX_ERROR (hexDigit low)
    let bytes ← decodePairs pairs
    return ((high <<< 4) ||| low) :: bytes

def decodeHex (value : Text) : Except ActiveError (List UInt8) :=
  decodePairs (Utf8.encode value)

/-! ## Checks -/

/-- `Path::is_absolute`, and no NUL. -/
def validateActiveDir (dir : ShellBytes) : Except ActiveError Unit :=
  if dir.head? ≠ some 0x2F ∨ 0 ∈ dir then
    .error (.message "invalid active project path")
  else .ok ()

def validateActiveVariable (key : Text) : Except ActiveError Unit :=
  if key = [] ∨ 0x3D ∈ Utf8.encode key ∨ 0 ∈ Utf8.encode key then
    .error (.message "invalid active variable name")
  else .ok ()

def parseActiveMtimes (mtimes : Text) : Except ActiveError (UInt64 × UInt64) := do
  let (envrc, dotenv) ← ok_or "invalid active timestamps" (Text.splitOnce ' ' mtimes)
  if envrc = [] ∨ dotenv = [] ∨ ' ' ∈ dotenv then
    throw (.message "invalid active timestamps")
  let envrc ← ok_or "invalid envrc timestamp" (Numeral.parseU64 envrc)
  let dotenv ← ok_or "invalid dotenv timestamp" (Numeral.parseU64 dotenv)
  return (envrc, dotenv)

/-! ## Reading -/

/-- `String::from_utf8` -/
def utf8Name (bytes : List UInt8) : Except ActiveError Text :=
  ok_or "invalid active variable name" (asUtf8Str bytes)

def parseActiveBinding (line : Text) : Except ActiveError PrevVar := do
  let (kind, rest) ← ok_or "invalid active binding" (Text.splitOnce ' ' line)
  let (name, value) ←
    if kind = ['U'] ∨ kind = ['X'] ∨ kind = ['N'] then pure (rest, none) else do
      let (name, value) ← ok_or "invalid active binding" (Text.splitOnce ' ' rest)
      pure (name, some value)
  let name ← utf8Name (← decodeHex name)
  validateActiveVariable name
  match kind, value with
  | ['U'], none => return .Unset name
  | ['X'], none => return .Unassigned name true
  | ['N'], none => return .Unassigned name false
  | [k], some value =>
    if k = 'E' ∨ k = 'L' then
      let value ← decodeHex value
      if 0 ∈ value then throw (.message "invalid active variable value")
      return .Restore name value (k == 'E')
    else throw (.message "invalid active binding kind")
  | _, _ => throw (.message "invalid active binding kind")

def parseActiveBindings (lines : List Text) : Except ActiveError (List PrevVar) :=
  lines.mapM parseActiveBinding

def unescapeNewlines : Text → Text
  | [] => []
  | c :: chars =>
    if c = '\\' then
      match chars with
      | [] => ['\\']
      | 'n' :: rest => '\n' :: unescapeNewlines rest
      | '\\' :: rest => '\\' :: unescapeNewlines rest
      | other :: rest => '\\' :: other :: unescapeNewlines rest
    else c :: unescapeNewlines chars

/-- A line of the older formats: an assignment, or a name that was unset. -/
def parseActiveVar (encodedKeys : Bool) (line : Text) : Except ActiveError PrevVar :=
  let decodeKey (key : Text) := if encodedKeys then unescapeNewlines key else key
  match Text.splitOnce '=' line with
  | some (key, value) => do
    let key := decodeKey key
    validateActiveVariable key
    let value := unescapeNewlines value
    if '\x00' ∈ value then throw (.message "invalid active variable value")
    return .Restore key (ShellBytes.ofText value) true
  | none =>
    if line ≠ [] then do
      let key := decodeKey line
      validateActiveVariable key
      return .Unset key
    else throw (.message "empty active variable record")

def parseActiveVars (lines : List Text) (encodedKeys : Bool) :
    Except ActiveError (List PrevVar) :=
  lines.mapM (parseActiveVar encodedKeys)

/-- `lines.next().ok_or(error)?`, with the lines left. -/
def nextLine (error : String) : List Text → Except ActiveError (Text × List Text)
  | [] => .error (.message error)
  | line :: lines => .ok (line, lines)

def parseLegacyActive (content : Text) : Except ActiveError ActiveState := do
  let (dir, lines) ← nextLine "missing legacy project path" (Text.lines content)
  let dir := ShellBytes.ofText dir
  validateActiveDir dir
  let (mtimes, lines) ← nextLine "missing legacy timestamps" lines
  let (envrc_mtime, dotenv_mtime) ← parseActiveMtimes mtimes
  let prev ← parseActiveVars lines false
  return { dir, envrc_mtime, dotenv_mtime, prev }

def parseActive (content : Text) : Except ActiveError ActiveState :=
  if "DENV-ACTIVE ".toList.isPrefixOf content then do
    let (header, lines) ← nextLine "missing active format header"
      (Text.splitTerminator '\n' content)
    if header ≠ ACTIVE_FORMAT_HEADER ∧ header ≠ "DENV-ACTIVE 1".toList then
      throw (.unsupportedFormat header)
    let (path_hex, lines) ← nextLine "missing active project path" lines
    let dir ← decodeHex path_hex
    if dir = [] ∨ 0 ∈ dir then throw (.message "invalid active project path")
    validateActiveDir dir
    let (mtimes, lines) ← nextLine "missing active timestamps" lines
    let (envrc_mtime, dotenv_mtime) ← parseActiveMtimes mtimes
    let prev ← if header = ACTIVE_FORMAT_HEADER then parseActiveBindings lines
      else parseActiveVars lines true
    return { dir, envrc_mtime, dotenv_mtime, prev }
  else parseLegacyActive content

/-! ## Writing -/

/-- The checks of `save_active` on one entry. -/
def validatePrev : PrevVar → Except ActiveError Unit
  | .Restore key value _ => do
    validateActiveVariable key
    if 0 ∈ value then throw (.message "invalid active variable value")
  | .Unset key | .Unassigned key _ => validateActiveVariable key

/-- The line of one entry, without its newline. -/
def prevLine : PrevVar → Text
  | .Restore name value exported =>
    [if exported then 'E' else 'L', ' '] ++ writeHex (Utf8.encode name) ++ ' ' ::
      writeHex value
  | .Unassigned name exported =>
    [if exported then 'X' else 'N', ' '] ++ writeHex (Utf8.encode name)
  | .Unset name => ['U', ' '] ++ writeHex (Utf8.encode name)

def activeLines (state : ActiveState) : List Text :=
  ACTIVE_FORMAT_HEADER :: writeHex state.dir ::
    (Numeral.u64ToString state.envrc_mtime ++ ' ' ::
      Numeral.u64ToString state.dotenv_mtime) :: state.prev.map prevLine

/-- Every check of `save_active` fails under one prefix. -/
def writeError : ActiveError → ActiveError
  | .message text => .message ("failed to write active file: " ++ text)
  | .unsupportedFormat header => .unsupportedFormat header

/-- The text `save_active` writes, or the reason it writes none. -/
def saveActive (state : ActiveState) : Except ActiveError Text := do
  (validateActiveDir state.dir).mapError writeError
  (forM state.prev validatePrev).mapError writeError
  return (activeLines state).flatMap fun line => line ++ ['\n']

/-! ## Hexadecimal round trip -/

private theorem hexByte_facts : ∀ n ∈ List.range 256, let byte := UInt8.ofNat n
    (decodePairs (Utf8.encode (hexByte byte))).toOption = some [byte] ∧
      (Utf8.encode (hexByte byte)).length = 2 ∧
      ' ' ∉ hexByte byte ∧ '\n' ∉ hexByte byte := by
  decide +kernel

theorem decodePairs_hexByte (byte : UInt8) (rest : List UInt8) :
    decodePairs (Utf8.encode (hexByte byte) ++ rest) =
      (decodePairs rest).map (byte :: ·) := by
  obtain ⟨hdecode, hlength, -⟩ := hexByte_facts byte.toNat (mem_range.mpr byte.toNat_lt)
  simp only [UInt8.ofNat_toNat] at hdecode hlength
  obtain ⟨high, low, hpair⟩ := length_eq_two.mp hlength
  rw [hpair] at hdecode ⊢
  rw [cons_append, cons_append, nil_append, decodePairs]
  rw [decodePairs] at hdecode
  cases hhigh : hexDigit high with
  | none => simp [hhigh, ok_or, Except.toOption] at hdecode
  | some h =>
    cases hlow : hexDigit low with
    | none => simp [hhigh, hlow, ok_or, Except.toOption] at hdecode
    | some l =>
      simp only [hhigh, hlow, ok_or, decodePairs, Result.ok_bind,
        Result.pure_eq_ok, Except.toOption, Option.some.injEq,
        List.cons.injEq, and_true] at hdecode
      simp only [ok_or, Result.ok_bind, hdecode]
      cases decodePairs rest <;> rfl

@[simp] theorem decodeHex_writeHex (bytes : List UInt8) :
    decodeHex (writeHex bytes) = .ok bytes := by
  induction bytes with
  | nil => rfl
  | cons byte bytes ih =>
    rw [decodeHex] at ih
    rw [decodeHex, writeHex, flatMap_cons, Utf8.encode_append,
      decodePairs_hexByte, ← writeHex, ih]
    rfl

theorem notMem_writeHex {c} (hc : c = ' ' ∨ c = '\n') (bytes : List UInt8) :
    c ∉ writeHex bytes := by
  intro h
  obtain ⟨byte, -, hmem⟩ := mem_flatMap.mp h
  obtain ⟨-, -, hspace, hnewline⟩ :=
    hexByte_facts byte.toNat (mem_range.mpr byte.toNat_lt)
  rw [UInt8.ofNat_toNat] at hspace hnewline
  rcases hc with rfl | rfl
  · exact hspace hmem
  · exact hnewline hmem

theorem length_encode_writeHex (bytes : List UInt8) :
    (Utf8.encode (writeHex bytes)).length = 2 * bytes.length := by
  induction bytes with
  | nil => rfl
  | cons byte bytes ih =>
    obtain ⟨-, hlength, -⟩ := hexByte_facts byte.toNat (mem_range.mpr byte.toNat_lt)
    simp only [UInt8.ofNat_toNat] at hlength
    rw [writeHex, flatMap_cons, Utf8.encode_append, length_append, ← writeHex, ih,
      hlength, length_cons]
    omega

/-! ## The record round trip -/

theorem notMem_u64ToString {c} (hc : c.isDigit = false) (n : UInt64) :
    c ∉ Numeral.u64ToString n := by
  intro h
  rw [Numeral.isDigit_of_mem_toDigits h] at hc
  cases hc

theorem parseActiveMtimes_u64ToString (envrc dotenv : UInt64) :
    parseActiveMtimes (Numeral.u64ToString envrc ++ ' ' ::
      Numeral.u64ToString dotenv) = .ok (envrc, dotenv) := by
  have hne : ∀ n, Numeral.u64ToString n ≠ [] := fun n => Nat.toDigits_ne_nil
  have hspace : ∀ n, ' ' ∉ Numeral.u64ToString n :=
    fun n => notMem_u64ToString (by decide) n
  rw [parseActiveMtimes, Text.splitOnce_append (hspace envrc)]
  simp [ok_or, hne, hspace]

private theorem splitOnce_kind {kind} (hkind : kind ≠ ' ') (rest : Text) :
    Text.splitOnce ' ' (kind :: ' ' :: rest) = some ([kind], rest) :=
  have hbefore : ' ' ∉ [kind] := by simpa using Ne.symm hkind
  Text.splitOnce_append hbefore rest

private theorem utf8Name_encode (name : Text) : utf8Name (Utf8.encode name) = .ok name := by
  rw [utf8Name, ← ShellBytes.ofText, asUtf8Str_ofText]
  rfl

theorem parseActiveBinding_prevLine {prev} (h : validatePrev prev = .ok ()) :
    parseActiveBinding (prevLine prev) = .ok prev := by
  cases prev with
  | Restore name value exported =>
    rw [validatePrev, Result.bind_eq_ok] at h
    obtain ⟨⟨⟩, hname, hvalue⟩ := h
    have hnul : 0 ∉ value := by
      intro hmem
      simp [hmem] at hvalue
    have hsplit := Text.splitOnce_append
      (notMem_writeHex (.inl rfl) (Utf8.encode name)) (writeHex value)
    cases exported <;>
      simp [parseActiveBinding, prevLine, splitOnce_kind, hsplit, ok_or,
        utf8Name_encode, hname, hnul]
  | Unassigned name exported =>
    rw [validatePrev] at h
    cases exported <;>
      simp [parseActiveBinding, prevLine, splitOnce_kind, ok_or, utf8Name_encode, h]
  | Unset name =>
    rw [validatePrev] at h
    simp [parseActiveBinding, prevLine, splitOnce_kind, ok_or, utf8Name_encode, h]

theorem newline_notMem_prevLine (prev : PrevVar) : '\n' ∉ prevLine prev := by
  have hhex : ∀ bytes, '\n' ∉ writeHex bytes := notMem_writeHex (.inr rfl)
  cases prev with
  | Restore name value exported | Unassigned name exported =>
    cases exported <;> simp [prevLine, hhex]
  | Unset name => simp [prevLine, hhex]

theorem newline_notMem_activeLines (state : ActiveState) :
    ∀ line ∈ activeLines state, '\n' ∉ line := by
  intro line hline
  simp only [activeLines, mem_cons, mem_map] at hline
  rcases hline with rfl | rfl | rfl | ⟨prev, -, rfl⟩
  · decide
  · exact notMem_writeHex (.inr rfl) state.dir
  · simp [notMem_u64ToString (c := '\n') (by decide)]
  · exact newline_notMem_prevLine prev

private theorem isPrefixOf_header (rest : Text) :
    "DENV-ACTIVE ".toList.isPrefixOf (ACTIVE_FORMAT_HEADER ++ rest) = true := by
  have hheader : ACTIVE_FORMAT_HEADER = "DENV-ACTIVE ".toList ++ ['2'] := by decide
  rw [hheader, append_assoc, List.isPrefixOf_iff_prefix]
  exact prefix_append _ _

/-- **The record round trip**: what `save_active` writes, `parse_active` reads
back. -/
theorem parseActive_saveActive {state text}
    (h : saveActive state = .ok text) : parseActive text = .ok state := by
  rw [saveActive, Result.bind_eq_ok] at h
  obtain ⟨⟨⟩, hdir, h⟩ := h
  rw [Result.bind_eq_ok] at h
  obtain ⟨⟨⟩, hprev, h⟩ := h
  rw [Result.mapError_eq_ok] at hdir hprev
  rw [Result.pure_eq_ok, Except.ok.injEq] at h
  subst h
  have hbindings : parseActiveBindings (state.prev.map prevLine) = .ok state.prev :=
    Result.mapM_map_eq_ok fun prev hmem =>
      parseActiveBinding_prevLine (Result.forM_eq_ok.mp hprev prev hmem)
  have hpath : ¬(state.dir = [] ∨ 0 ∈ state.dir) := by
    intro hbad
    rw [validateActiveDir, if_pos] at hdir
    · cases hdir
    · rcases hbad with hnil | hnul
      · exact .inl (by simp [hnil])
      · exact .inr hnul
  have hlines := Text.splitTerminator_flatMap (newline_notMem_activeLines state)
  have hstart : "DENV-ACTIVE ".toList.isPrefixOf
      ((activeLines state).flatMap fun line => line ++ ['\n']) = true := by
    rw [activeLines, flatMap_cons, append_assoc]
    exact isPrefixOf_header _
  rw [parseActive, if_pos hstart, hlines, activeLines]
  simp only [nextLine, Result.ok_bind, ne_eq, not_true, false_and, if_false,
    decodeHex_writeHex, hpath, hdir, parseActiveMtimes_u64ToString, if_true,
    hbindings, Result.pure_eq_ok]

/-! ## Entering and leaving a project -/

/-- Entering applies `diff` to `v`; leaving applies the record `prev`. Both
succeed, and the store is as before: every binding, and all the rest. -/
def Restores (v : Variables) (diff : EnvDiff) (prev : List PrevVar) : Prop :=
  ∃ v1 v2, applyChanges v (applyDiff diff) = .ok v1 ∧
    applyChanges v1 (applyRestore prev) = .ok v2 ∧
    v2.binding = v.binding ∧ v2.rest = v.rest

/-- **Entering and leaving a project restores the shell**, from the captured
record and from the one that went through the active file. -/
theorem leave_restores (v : Variables) (diff : EnvDiff)
    (hfree : ∀ name ∈ diff.names, v.isReadonly name = false) :
    Restores v diff (capturePrev diff v) ∧
      ∀ state text, state.prev = capturePrev diff v → saveActive state = .ok text →
        ∃ read, parseActive text = .ok read ∧ Restores v diff read.prev := by
  have hrestores : Restores v diff (capturePrev diff v) := by
    refine applyRestore_applyDiff v diff fun name hname var hvar => ?_
    have hro := hfree name hname
    rw [Variables.isReadonly, hvar] at hro
    exact hro
  refine ⟨hrestores, fun state text hprev hsave => ?_⟩
  exact ⟨state, parseActive_saveActive hsave, hprev ▸ hrestores⟩

/-- A diff that sets an unassigned variable twice, sets an absent one and unsets
`IFS`. -/
theorem leave_restores_duplicates :
    let v := (Variables.newClean.declare ['A']).exportVar ['A']
    let diff : EnvDiff :=
      { set := [(['A'], [0x31]), (['B'], []), (['A'], [0xFF])]
        unset := ["IFS".toList] }
    Restores v diff (capturePrev diff v) ∧
      ∀ state text, state.prev = capturePrev diff v → saveActive state = .ok text →
        ∃ read, parseActive text = .ok read ∧ Restores v diff read.prev :=
  leave_restores _ _ (by decide)

end Ish.Denv
