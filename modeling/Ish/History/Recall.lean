import Ish.History.Latest

/-!
# Recall — the commands of a session, the most recent first

The model of `remember_session`, `compact_session`, `session_get` and
`session_prefix_search` in `src/history.rs`. A command that is remembered again
leaves a tombstone in its old slot; each entry caches the slot it is in, and
compaction renumbers them. What is recalled is a list in which every remembered
command moves to the front.
-/

namespace Ish.History

open Ish.Lib List
open Ish.HistoryLog (Occurrence)

/-! ## The slots of a session -/

def SESSION_REMOVED : Nat := U32_MAX

/-- The fields of `History` that recall reads, oldest slot first;
`session_position` of an entry's usage is kept here by the entry's index. -/
structure Session where
  session : List Nat
  session_live : Nat
  session_position : Nat → Option Nat

namespace Session

def empty : Session := { session := [], session_live := 0, session_position := fun _ => none }

/-- One round of the loop of `compact_session`. The new slots are no more than
the old ones, so that their numbers fit in 32 bits. -/
def compactSlot (session : Session) (idx : Nat) : Session :=
  if idx = SESSION_REMOVED then session
  else { session with
    session := session.session ++ [idx]
    session_position := Function.update session.session_position idx
      (some (session.session.length + 1)) }

def compactSession (session : Session) : Session :=
  if session.session.length ≤ 2 * session.session_live ∨ session.session.length ≤ 64 then session
  else session.session.foldl compactSlot { session with session := [] }

/-- What is done about the slot an entry is in. -/
def leaveSlot (session : Session) (idx : Nat) : Session :=
  match session.session_position idx with
  | some previous =>
    { session with session := session.session.set (previous - 1) SESSION_REMOVED }
  | none => { session with session_live := session.session_live + 1 }

/-- The entry takes a new slot, the last one. -/
def takeSlot (session : Session) (idx : Nat) : Session :=
  { session with
    session := session.session ++ [idx]
    session_position := Function.update session.session_position idx
      (some (session.session.length + 1)) }

def rememberSession (session : Session) (idx : Nat) : Option Session :=
  let next := (session.leaveSlot idx).takeSlot idx
  if U32_MAX < idx ∨ U32_MAX < next.session.length then none else some next.compactSession

/-- The entries that are remembered, oldest first. -/
def live (session : Session) : List Nat := session.session.filter (· ≠ SESSION_REMOVED)

end Session

/-! ## The memory of a shell -/

/-- The tables and the session of a `History`, and the commands that were
remembered since the last clear. No code reads the last. -/
structure Memory where
  tables : Tables
  session : Session
  remembered : List (List Char)

namespace Memory

def empty : Memory := { tables := .empty, session := .empty, remembered := [] }

/-- `get`, of an entry that is there. -/
def text (memory : Memory) (idx : Nat) : Option (List Char) :=
  (memory.tables.entries[idx]?).map Entry.text

def sessionGet (memory : Memory) (skip : Nat) : Option (List Char) :=
  (memory.session.live.reverse[skip]?).bind memory.text

def sessionPrefixSearch (memory : Memory) (start : List Char) (skip : Nat) :
    Option (List Char) :=
  ((memory.session.live.reverse.filterMap memory.text).filter (start.isPrefixOf ·))[skip]?

/-- `remember_session` -/
def remember (memory : Memory) (idx : Nat) : Option Memory := do
  let command ← memory.text idx
  let session ← memory.session.rememberSession idx
  return { memory with session, remembered := memory.remembered ++ [command] }

variable (hash : List Char → UInt64)

/-- `apply_snapshot`: a new generation clears all there is. -/
def applySnapshot (memory : Memory) (cleared : Bool) (occurrences : List Occurrence) :
    Option Memory := do
  let memory := if cleared then empty else memory
  let tables ← occurrences.foldlM (Tables.applyOccurrence hash) memory.tables
  return { memory with tables }

/-- What happens to the memory of a shell. -/
inductive Event where
  /-- `sync`, of what other shells did. -/
  | sync (cleared : Bool) (occurrences : List Occurrence)
  /-- `load_from` remembers all entries, by their latest occurrence. -/
  | load
  /-- `add_in_dir` of a line, which is one of the occurrences read back. -/
  | add (cleared : Bool) (occurrences : List Occurrence) (line : List Char)
  | reset

def step (memory : Memory) : Event → Option Memory
  | .sync cleared occurrences => memory.applySnapshot hash cleared occurrences
  | .load => memory.tables.latest_occurrences.foldlM (fun memory row => memory.remember row.2) memory
  | .add cleared occurrences line => do
    let memory ← memory.applySnapshot hash cleared occurrences
    let idx ← memory.tables.findEntryIndex (hash line) line
    memory.remember idx
  | .reset => some empty

/-- The memory after some events; a panic ends the shell. -/
def run (memory : Memory) (events : List Event) : Option Memory :=
  events.foldlM (step hash) memory

end Memory

/-! ## The list that is recalled -/

/-- A command moves to the front. -/
def moveToFront (recent : List (List Char)) (command : List Char) : List (List Char) :=
  command :: recent.erase command

/-- The remembered commands, the most recent first. -/
def Memory.recent (memory : Memory) : List (List Char) := memory.remembered.foldl moveToFront []

theorem nodup_moveToFront (h : recent.Nodup) (command : List Char) :
    (moveToFront recent command).Nodup :=
  nodup_cons.mpr ⟨h.not_mem_erase, h.erase command⟩

theorem nodup_recent (memory : Memory) : memory.recent.Nodup := by
  rw [Memory.recent]
  have hfold : ∀ (commands recent : List (List Char)), recent.Nodup →
      (commands.foldl moveToFront recent).Nodup := by
    intro commands
    induction commands with
    | nil => exact fun recent h => h
    | cons command commands ih => exact fun recent h => ih _ (nodup_moveToFront h command)
  exact hfold memory.remembered [] nodup_nil

/-! ## The slots are numbered -/

theorem exists_around {slots : List Nat} (h : slots[i]? = some idx) :
    ∃ before after, slots = before ++ idx :: after ∧ before.length = i := by
  obtain ⟨hlt, hget⟩ := List.getElem?_eq_some_iff.mp h
  refine ⟨slots.take i, slots.drop (i + 1), ?_, by rw [length_take]; omega⟩
  rw [← hget, ← drop_eq_getElem_cons hlt, take_append_drop]

namespace Session

/-- Each entry, but for some, knows the one slot it is in. -/
def PositionsBut (session : Session) (apart : Nat → Prop) : Prop :=
  ∀ idx, ¬ apart idx → ∀ position, session.session_position idx = some position ↔
    0 < position ∧ session.session[position - 1]? = some idx ∧ idx ≠ SESSION_REMOVED

structure Numbered (session : Session) : Prop where
  positions : session.PositionsBut fun _ => False
  session_live : session.session_live = session.live.length

variable {session : Session}

theorem numbered_empty : Numbered empty where
  positions := by simp [PositionsBut, empty]
  session_live := rfl

theorem Numbered.mem_live (h : Numbered session) :
    idx ∈ session.live ↔ ∃ position, session.session_position idx = some position := by
  rw [live, mem_filter, decide_eq_true_iff]
  constructor
  · rintro ⟨hslot, hremoved⟩
    obtain ⟨i, hi⟩ := mem_iff_getElem?.mp hslot
    exact ⟨i + 1, (h.positions idx id (i + 1)).mpr ⟨Nat.succ_pos i, hi, hremoved⟩⟩
  · rintro ⟨position, hposition⟩
    obtain ⟨_, hslot, hremoved⟩ := (h.positions idx id position).mp hposition
    exact ⟨mem_of_getElem? hslot, hremoved⟩

theorem Numbered.nodup (h : Numbered session) : session.live.Nodup := by
  rw [live, List.Nodup, pairwise_filter, pairwise_iff_getElem]
  intro i j hi hj hlt hremoved _ hsame
  -- The entry would know two slots.
  have hfirst := (h.positions _ id (i + 1)).mpr
    ⟨Nat.succ_pos i, getElem?_eq_getElem hi, of_decide_eq_true hremoved⟩
  have hsecond := (h.positions session.session[i] id (j + 1)).mpr
    ⟨Nat.succ_pos j, by rw [hsame]; exact getElem?_eq_getElem hj,
      of_decide_eq_true hremoved⟩
  rw [hfirst, Option.some.injEq] at hsecond
  omega

/-- **Taking a slot** at the end, for an entry that has none. -/
theorem PositionsBut.takeSlot
    (h : session.PositionsBut fun other => other = idx ∨ apart other)
    (habsent : idx ∉ session.session) (hidx : idx ≠ SESSION_REMOVED) :
    (session.takeSlot idx).PositionsBut apart := by
  intro other hother position
  show Function.update session.session_position idx (some (session.session.length + 1)) other =
    some position ↔ 0 < position ∧ (session.session ++ [idx])[position - 1]? = some other ∧ _
  have hend : position ≠ session.session.length + 1 → 0 < position →
      (session.session ++ [idx])[position - 1]? = session.session[position - 1]? := by
    intro hposition hpos
    rw [getElem?_append]
    split
    · rfl
    · rw [getElem?_eq_none (by simp; omega), getElem?_eq_none (by omega)]
  by_cases hsame : other = idx
  · subst hsame
    rw [Function.update_self, Option.some.injEq]
    constructor
    · rintro rfl
      exact ⟨Nat.succ_pos _, getElem?_concat_length, hidx⟩
    · rintro ⟨hpos, hslot, _⟩
      by_contra hposition
      rw [hend (Ne.symm hposition) hpos] at hslot
      exact habsent (mem_of_getElem? hslot)
  · rw [Function.update_of_ne hsame, h other (by simp [hsame, hother]) position]
    by_cases hposition : position = session.session.length + 1
    · subst hposition
      rw [Nat.add_sub_cancel, getElem?_concat_length,
        getElem?_eq_none (Nat.le_refl _)]
      simp [Ne.symm hsame]
    · by_cases hpos : 0 < position
      · rw [hend hposition hpos]
      · simp [hpos]

/-- **Leaving a slot**: a tombstone takes the place of the entry. -/
theorem Numbered.leaveSlot (h : Numbered session) (hidx : idx ≠ SESSION_REMOVED) :
    ((session.leaveSlot idx).PositionsBut fun other => other = idx ∨ False) ∧
      idx ∉ (session.leaveSlot idx).session ∧
      (session.leaveSlot idx).live = session.live.erase idx ∧
      (session.leaveSlot idx).session_live = (session.live.erase idx).length + 1 := by
  cases hposition : session.session_position idx with
  | none =>
    have hlive : idx ∉ session.live := by
      rw [h.mem_live, hposition]
      simp
    rw [Session.leaveSlot, hposition, erase_of_not_mem hlive]
    refine ⟨fun other _ => h.positions other id, fun hmem => hlive ?_, rfl, ?_⟩
    · exact mem_filter.mpr ⟨hmem, decide_eq_true hidx⟩
    · exact congrArg (· + 1) h.session_live
  | some previous =>
    have hlive : idx ∈ session.live := h.mem_live.mpr ⟨previous, hposition⟩
    obtain ⟨hpos, hslot, _⟩ := (h.positions idx id previous).mp hposition
    obtain ⟨before, after, hsession, hlength⟩ := exists_around hslot
    have hset : session.session.set (previous - 1) SESSION_REMOVED =
        before ++ SESSION_REMOVED :: after := by
      rw [hsession, set_append_right _ _ hlength.le, hlength, Nat.sub_self]
      rfl
    have hnodup := h.nodup
    have hsplit : session.live = before.filter (· ≠ SESSION_REMOVED) ++
        idx :: after.filter (· ≠ SESSION_REMOVED) := by
      rw [live, hsession, List.filter_append, filter_cons_of_pos (by simpa using hidx)]
    rw [hsplit, nodup_append, nodup_cons] at hnodup
    obtain ⟨_, ⟨hafter, _⟩, hdisjoint⟩ := hnodup
    have hbefore : idx ∉ before.filter (· ≠ SESSION_REMOVED) :=
      fun hmem => hdisjoint idx hmem idx mem_cons_self rfl
    rw [Session.leaveSlot, hposition]
    dsimp only
    refine ⟨?_, ?_, ?_, ?_⟩
    · intro other hother position
      rw [h.positions other id position]
      by_cases hplace : previous - 1 = position - 1
      · have hlt := (List.getElem?_eq_some_iff.mp hslot).1
        rw [← hplace, hslot, getElem?_set_self hlt]
        constructor
        · rintro ⟨_, hsame, _⟩
          exact absurd (Or.inl (Option.some.inj hsame).symm) hother
        · rintro ⟨_, hsame, hremoved⟩
          exact absurd (Option.some.inj hsame).symm hremoved
      · rw [getElem?_set_ne hplace]
    · rw [hset, mem_append, mem_cons]
      rintro (hmem | hsame | hmem)
      · exact hbefore (mem_filter.mpr ⟨hmem, decide_eq_true hidx⟩)
      · exact hidx hsame
      · exact hafter (mem_filter.mpr ⟨hmem, decide_eq_true hidx⟩)
    · rw [live, hset, hsplit, erase_append_right _ hbefore, erase_cons_head,
        List.filter_append, filter_cons_of_neg (by simp)]
    · rw [h.session_live, length_erase_of_mem hlive]
      have := length_pos_of_mem hlive
      omega

theorem live_takeSlot (session : Session) (hidx : idx ≠ SESSION_REMOVED) :
    (session.takeSlot idx).live = session.live ++ [idx] := by
  rw [live, Session.takeSlot, List.filter_append, filter_singleton]
  simp [live, hidx]

theorem foldl_compactSlot (slots : List Nat)
    (h : session.PositionsBut fun idx => idx ∈ slots.filter (· ≠ SESSION_REMOVED))
    (hnodup : (session.session ++ slots.filter (· ≠ SESSION_REMOVED)).Nodup) :
    ((slots.foldl compactSlot session).PositionsBut fun _ => False) ∧
      (slots.foldl compactSlot session).session =
        session.session ++ slots.filter (· ≠ SESSION_REMOVED) ∧
      (slots.foldl compactSlot session).session_live = session.session_live := by
  induction slots generalizing session with
  | nil =>
    refine ⟨fun idx _ => h idx (not_mem_nil), ?_, rfl⟩
    rw [filter_nil, append_nil]
    rfl
  | cons idx slots ih =>
    rw [foldl_cons, compactSlot]
    by_cases hidx : idx = SESSION_REMOVED
    · rw [filter_cons_of_neg (by simpa using hidx)] at h hnodup ⊢
      rw [if_pos hidx]
      exact ih h hnodup
    · rw [filter_cons_of_pos (by simpa using hidx)] at h hnodup ⊢
      rw [if_neg hidx]
      have habsent : idx ∉ session.session := by
        rw [nodup_append] at hnodup
        exact fun hmem => hnodup.2.2 idx hmem idx mem_cons_self rfl
      have hnext : (session.takeSlot idx).PositionsBut
          fun other => other ∈ slots.filter (· ≠ SESSION_REMOVED) :=
        PositionsBut.takeSlot (fun other hother => h other (by simpa using hother)) habsent hidx
      obtain ⟨hpositions, hsession, hlive⟩ := ih hnext (by
        rw [takeSlot, append_assoc]
        exact hnodup)
      refine ⟨hpositions, hsession.trans ?_, hlive⟩
      rw [takeSlot, append_assoc]
      rfl

/-- **Compaction** renumbers the slots and keeps what is live. -/
theorem Numbered.compactSession (h : Numbered session) :
    session.compactSession.Numbered ∧ session.compactSession.live = session.live := by
  rw [Session.compactSession]
  split
  · exact ⟨h, rfl⟩
  · have hstart : PositionsBut { session with session := [] }
        fun idx => idx ∈ session.session.filter (· ≠ SESSION_REMOVED) := by
      intro idx hidx position
      refine iff_of_false (fun hsome => hidx (h.mem_live.mpr ⟨position, hsome⟩)) ?_
      rintro ⟨_, hslot, _⟩
      cases hslot
    obtain ⟨hpositions, hsession, hlive⟩ :=
      foldl_compactSlot session.session hstart h.nodup
    have hsame : (session.session.foldl compactSlot { session with session := [] }).live =
        session.live := by
      rw [live, hsession, nil_append, filter_filter]
      simp [live]
    exact ⟨⟨hpositions, by rw [hlive, hsame]; exact h.session_live⟩, hsame⟩

/-- **Remembering an entry** puts it behind all the others. -/
theorem Numbered.rememberSession (h : Numbered session) (hidx : idx ≠ SESSION_REMOVED) (hremember : session.rememberSession idx = some session') :
    session'.Numbered ∧ session'.live = session.live.erase idx ++ [idx] := by
  obtain ⟨hpositions, habsent, hlive, hcount⟩ := h.leaveSlot hidx
  have hmoved : ((session.leaveSlot idx).takeSlot idx).live = session.live.erase idx ++ [idx] := by
    rw [live_takeSlot _ hidx, hlive]
  have hnumbered : ((session.leaveSlot idx).takeSlot idx).Numbered := by
    refine ⟨hpositions.takeSlot habsent hidx, ?_⟩
    rw [hmoved, length_append, length_singleton]
    exact hcount
  rw [Session.rememberSession] at hremember
  split at hremember
  · cases hremember
  · cases hremember
    obtain ⟨hcompacted, hsame⟩ := hnumbered.compactSession
    exact ⟨hcompacted, hsame.trans hmoved⟩

end Session

/-! ## The texts of the entries -/

/-- Texts that differ take space: only few have one byte or none. -/
theorem length_le_bytes {texts : List (List Char)} (h : texts.Nodup) :
    2 * texts.length ≤ (texts.map fun text => (Utf8.encode text).length).sum + 514 := by
  have hshort : ∀ texts : List (List Char), 2 * texts.length ≤
      (texts.map fun text => (Utf8.encode text).length).sum +
        2 * (texts.filter fun text => (Utf8.encode text).length ≤ 1).length := by
    intro texts
    induction texts with
    | nil => exact le_rfl
    | cons text texts ih =>
      rw [map_cons, sum_cons, length_cons, filter_cons]
      split
      · rw [length_cons]
        omega
      · next hlong =>
          rw [decide_eq_true_iff] at hlong
          omega
  have hcount : (texts.filter fun text => (Utf8.encode text).length ≤ 1).length ≤ 257 := by
    have hnodup : ((texts.filter fun text => (Utf8.encode text).length ≤ 1).map Utf8.encode).Nodup :=
      (h.filter _).map fun _ _ => Utf8.encode_injective
    have hsubset : ((texts.filter fun text => (Utf8.encode text).length ≤ 1).map Utf8.encode) ⊆
        [] :: (List.range 256).map fun n => [UInt8.ofNat n] := by
      intro bytes hmem
      obtain ⟨text, htext, rfl⟩ := mem_map.mp hmem
      have hlength := of_decide_eq_true (mem_filter.mp htext).2
      rcases hbytes : Utf8.encode text with - | ⟨byte, - | ⟨next, rest⟩⟩
      · exact mem_cons_self
      · refine mem_cons_of_mem _ (mem_map.mpr ⟨byte.toNat, ?_, ?_⟩)
        · exact mem_range.mpr byte.toNat_lt
        · rw [UInt8.ofNat_toNat]
      · rw [hbytes, length_cons, length_cons] at hlength
        omega
    have hle := (hnodup.subperm hsubset).length_le
    rw [length_map] at hle
    simpa using hle
  have hsum := hshort texts
  omega

namespace Tables

def texts (tables : Tables) : List (List Char) := tables.entries.map Entry.text

/-- All texts but the last one fit in the arena. -/
def Packed (tables : Tables) : Prop :=
  (tables.texts.dropLast.map fun text => (Utf8.encode text).length).sum ≤ U32_MAX

variable {hash : List Char → UInt64} {tables tables' : Tables} {occurrences : List Occurrence}

/-- No entry has the number that marks a tombstone. -/
theorem Packed.ne_removed (h : tables.Packed) (hagrees : Agrees hash occurrences tables) {idx : Nat}
    (hidx : idx < tables.entries.length) : idx ≠ SESSION_REMOVED := by
  have hnodup : tables.texts.dropLast.Nodup := hagrees.texts.sublist (dropLast_sublist _)
  have hle := length_le_bytes hnodup
  rw [Packed] at h
  rw [length_dropLast, texts, length_map, ← texts] at hle
  unfold SESSION_REMOVED U32_MAX at *
  omega

theorem map_fst_headings (tables : Tables) : tables.headings.map Prod.fst = tables.texts := by
  rw [headings, texts, map_map]
  rfl

theorem texts_entryOf
    (h : tables.entryOf hash command = some (known, idx)) :
    tables.texts <+: known.texts ∧ (tables.Packed → known.Packed) := by
  rcases entryOf_cases h with ⟨-, rfl⟩ | ⟨-, hfits, -, _, rfl⟩
  · exact ⟨prefix_rfl, id⟩
  · have htexts : (tables.entries ++ [Entry.new command]).map Entry.text =
        tables.texts ++ [command] := map_append
    refine ⟨?_, fun _ => ?_⟩
    · show tables.texts <+: (tables.entries ++ [Entry.new command]).map Entry.text
      rw [htexts]
      exact prefix_append _ _
    · rw [Packed, texts, htexts, dropLast_concat, texts, map_map]
      exact hfits

/-- **One occurrence** adds its command to the texts when it is new. -/
theorem texts_applyOccurrence
    (happly : tables.applyOccurrence hash occurrence = some tables') :
    tables.texts <+: tables'.texts ∧ (tables.Packed → tables'.Packed) := by
  obtain ⟨known, idx, old, id, hknown, hold, _, hheadings, _⟩ := applyOccurrence_latest happly
  have htexts : tables'.texts = known.texts := by
    rw [← map_fst_headings, ← map_fst_headings, hheadings, map_set]
    apply ext_getElem?
    intro i
    rw [getElem?_set, length_map]
    by_cases hi : idx = i
    · subst hi
      rw [if_pos rfl, if_pos (List.getElem?_eq_some_iff.mp hold).1, getElem?_map, hold]
      rfl
    · rw [if_neg hi]
  obtain ⟨hmore, hpacked⟩ := texts_entryOf hknown
  refine ⟨by rwa [htexts], fun h => ?_⟩
  rw [Packed, htexts]
  exact hpacked h

end Tables

/-! ## What is recalled -/

namespace Memory

/-- The live entries of the session are the recent commands, in reverse. -/
structure Recalls (hash : List Char → UInt64) (memory : Memory) : Prop where
  agrees : ∃ occurrences, memory.tables.Agrees hash occurrences
  packed : memory.tables.Packed
  numbered : memory.session.Numbered
  texts : memory.session.live.reverse.map memory.text = memory.recent.map some

variable {hash : List Char → UInt64} {memory memory' : Memory}

theorem recalls_empty : Recalls hash empty where
  agrees := ⟨[], Tables.agrees_empty⟩
  packed := Nat.zero_le _
  numbered := Session.numbered_empty
  texts := rfl

theorem text_eq (memory : Memory) (idx : Nat) : memory.text idx = memory.tables.texts[idx]? := by
  rw [text, Tables.texts, getElem?_map]

section

variable (h : Recalls hash memory)
include h

theorem Recalls.text_isSome (hlive : idx ∈ memory.session.live) :
    ∃ command, memory.text idx = some command := by
  have hmem : memory.text idx ∈ memory.recent.map some := by
    rw [← h.texts]
    exact mem_map_of_mem (mem_reverse.mpr hlive)
  obtain ⟨command, _, hcommand⟩ := mem_map.mp hmem
  exact ⟨command, hcommand.symm⟩

/-- Entries have different texts. -/
theorem Recalls.text_inj
    (hidx : memory.text idx = some command) (hother : memory.text other = some command) :
    idx = other := by
  obtain ⟨_, hagrees⟩ := h.agrees
  rw [text_eq] at hidx hother
  exact (getElem?_inj (List.getElem?_eq_some_iff.mp hidx).1 hagrees.texts).mp
    (hidx.trans hother.symm)

/-- **Remembering** moves the command to the front. -/
theorem Recalls.remember
    (hremember : memory.remember idx = some memory') : Recalls hash memory' := by
  simp only [Memory.remember, Option.bind_eq_bind, Option.bind_eq_some_iff] at hremember
  obtain ⟨command, hcommand, session, hsession, hmemory⟩ := hremember
  cases hmemory
  obtain ⟨_, hagrees⟩ := h.agrees
  have hlt : idx < memory.tables.entries.length := by
    have hget := (text_eq memory idx).symm.trans hcommand
    simpa [Tables.texts] using (List.getElem?_eq_some_iff.mp hget).1
  obtain ⟨hnumbered, hlive⟩ :=
    h.numbered.rememberSession (h.packed.ne_removed hagrees hlt) hsession
  refine ⟨h.agrees, h.packed, hnumbered, ?_⟩
  have hrecent : recent { memory with session, remembered := memory.remembered ++ [command] } =
      moveToFront memory.recent command := by
    rw [recent, recent, foldl_append]
    rfl
  -- The entry and its command leave both lists at the same place.
  have hrest : (memory.session.live.erase idx).reverse.map memory.text =
      (memory.recent.erase command).map some := by
    rw [h.numbered.nodup.erase_eq_filter, (nodup_recent memory).erase_eq_filter,
      ← filter_reverse]
    have hsome : (memory.recent.filter (· != command)).map some =
        (memory.recent.map some).filter (· != some command) := by
      rw [filter_map]
      rfl
    rw [hsome, ← h.texts, filter_map]
    congr 1
    apply filter_congr
    intro other _
    rw [Function.comp_apply, Bool.eq_iff_iff, bne_iff_ne, bne_iff_ne]
    exact not_congr ⟨fun hsame => by rw [hsame, hcommand], fun htext => h.text_inj htext hcommand⟩
  rw [hrecent, hlive, reverse_append]
  show memory.text idx :: (memory.session.live.erase idx).reverse.map memory.text = _
  rw [hcommand, hrest]
  rfl

/-- **Occurrences** of any shell leave what is recalled as it is. -/
theorem Recalls.apply {occurrences : List Occurrence}
    (happly : occurrences.foldlM (Tables.applyOccurrence hash) memory.tables = some tables') :
    Recalls hash { memory with tables := tables' } := by
  induction occurrences generalizing memory with
  | nil =>
    cases happly
    exact h
  | cons occurrence occurrences ih =>
    rw [foldlM_cons, Option.bind_eq_bind, Option.bind_eq_some_iff] at happly
    obtain ⟨between, hfirst, hrest⟩ := happly
    obtain ⟨hmore, hpacked⟩ := Tables.texts_applyOccurrence hfirst
    obtain ⟨before, hagrees⟩ := h.agrees
    have hnext : Recalls hash { memory with tables := between } := by
      refine ⟨⟨_, hagrees.step hfirst⟩, hpacked h.packed, h.numbered, ?_⟩
      refine Eq.trans ?_ h.texts
      apply map_congr_left
      intro idx hidx
      obtain ⟨command, hcommand⟩ := h.text_isSome (mem_reverse.mp hidx)
      rw [hcommand, text_eq]
      rw [text_eq] at hcommand
      obtain ⟨more, hmore⟩ := hmore
      rw [← hmore, getElem?_append_left (List.getElem?_eq_some_iff.mp hcommand).1]
      exact hcommand
    exact @ih { memory with tables := between } hnext hrest

/-- **A snapshot** leaves what is recalled, or clears it. -/
theorem Recalls.applySnapshot {cleared : Bool}
    (hrun : memory.applySnapshot hash cleared occurrences = some memory') :
    Recalls hash memory' := by
  simp only [Memory.applySnapshot, Option.bind_eq_bind, Option.bind_eq_some_iff] at hrun
  obtain ⟨tables, happly, hmemory⟩ := hrun
  cases hmemory
  cases cleared with
  | true => exact recalls_empty.apply happly
  | false => exact h.apply happly

/-- **Every event** keeps the session and the recent commands together. -/
theorem Recalls.step {event}
    (hstep : memory.step hash event = some memory') : Recalls hash memory' := by
  cases event with
  | sync cleared occurrences => exact h.applySnapshot hstep
  | load =>
    rw [Memory.step] at hstep
    generalize memory.tables.latest_occurrences = rows at hstep
    induction rows generalizing memory with
    | nil =>
      cases hstep
      exact h
    | cons row rows ih =>
      rw [foldlM_cons, Option.bind_eq_bind, Option.bind_eq_some_iff] at hstep
      obtain ⟨between, hfirst, hrest⟩ := hstep
      exact ih (h.remember hfirst) hrest
  | add cleared occurrences line =>
    simp only [Memory.step, Option.bind_eq_bind, Option.bind_eq_some_iff] at hstep
    obtain ⟨between, hsnapshot, idx, _, hremember⟩ := hstep
    exact (h.applySnapshot hsnapshot).remember hremember
  | reset =>
    cases hstep
    exact recalls_empty

theorem Recalls.run
    (hrun : memory.run hash events = some memory') : Recalls hash memory' := by
  induction events generalizing memory with
  | nil =>
    cases hrun
    exact h
  | cons event events ih =>
    rw [Memory.run, foldlM_cons, Option.bind_eq_bind, Option.bind_eq_some_iff] at hrun
    obtain ⟨between, hstep, hrest⟩ := hrun
    exact ih (h.step hstep) hrest

theorem Recalls.sessionGet (skip : Nat) :
    memory.sessionGet skip = memory.recent[skip]? := by
  have hget := congrArg (·[skip]?) h.texts
  rw [getElem?_map, getElem?_map] at hget
  rw [Memory.sessionGet]
  cases hlive : memory.session.live.reverse[skip]? with
  | none =>
    rw [hlive] at hget
    exact (Option.map_eq_none_iff.mp hget.symm).symm
  | some idx =>
    rw [hlive, Option.map_some] at hget
    obtain ⟨command, hcommand, hsome⟩ := Option.map_eq_some_iff.mp hget.symm
    rw [hcommand, Option.bind_some]
    exact hsome.symm

theorem Recalls.sessionPrefixSearch (start : List Char) (skip : Nat) :
    memory.sessionPrefixSearch start skip = (memory.recent.filter (start.isPrefixOf ·))[skip]? := by
  have hrecent : memory.session.live.reverse.filterMap memory.text = memory.recent := by
    have hmap := congrArg (List.filterMap id) h.texts
    rw [filterMap_map, filterMap_map] at hmap
    simpa using hmap
  rw [Memory.sessionPrefixSearch, hrecent]

end

end Memory

/-- **Recall** is a list of recent commands: after any events of a shell, the
session gives its commands, and those that start in some way, the most recent
first; and in any run of any number of shells, the tables of each have one row
for each entry. -/
theorem session_recall (hash : List Char → UInt64) :
    (∀ events memory, Memory.empty.run hash events = some memory →
      memory.recent.Nodup ∧
      (∀ skip, memory.sessionGet skip = memory.recent[skip]?) ∧
      ∀ start skip, memory.sessionPrefixSearch start skip =
        (memory.recent.filter (start.isPrefixOf ·))[skip]?) ∧
    ∀ (world : HistoryLog.World) (events : List HistoryLog.Event) (shell : HistoryLog.Shell)
      (history : HistoryLog.History) (tables : Tables), world.Initial →
      (world.run events).shells shell = some history →
      Tables.ofOccurrences hash history.applied = some tables →
      Tables.OneRowEach history.applied tables := by
  constructor
  · intro events memory hrun
    have hrecalls := Memory.recalls_empty.run hrun
    exact ⟨nodup_recent memory, hrecalls.sessionGet, hrecalls.sessionPrefixSearch⟩
  · intro world events shell history tables hinitial hshell htables
    exact oneRowEach_run hinitial events hshell htables

/-- Three commands, the first of which is used again. -/
def repeatedCommand : List Memory.Event :=
  [(1, ['a']), (2, ['b']), (3, ['a'])].map fun row =>
    .add false [{ id := row.1, command := row.2, timestamp := 5, session_id := 0, cwd := none }]
      row.2

example : ((Memory.empty.run (fun _ => 0) repeatedCommand).map fun memory =>
    (memory.session.session, memory.sessionGet 0, memory.sessionGet 1, memory.sessionGet 2)) =
      some ([SESSION_REMOVED, 1, 0], some ['a'], some ['b'], none) := by
  decide

end Ish.History
