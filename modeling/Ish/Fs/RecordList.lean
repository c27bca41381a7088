import Ish.Fs.Layout

/-!
# The list of records

What a record spool is for: a list of records in push order, with cursors that
are places in it. A record is kept as the file keeps it (`Record.stored`), and a
push fails when the record or the spool gets too long.
-/

namespace Ish.Fs

open Ish.Lib List
open UnixPath (Path)

/-- The source of the record is the path. -/
def Record.at (path : Path) (record : Record) : Bool :=
  UnixPath.components record.source = UnixPath.components path

/-- The list with the first record that satisfies `p` changed. -/
def updateFirst (p : Record → Bool) (f : Record → Record) : List Record → Option (List Record)
  | [] => none
  | record :: records =>
    if p record then some (f record :: records)
    else (updateFirst p f records).map (record :: ·)

inductive Request where
  | push (record : Record)
  | find (path : Path)
  | setOutput (path : Path) (output : Observation)
  | setFinalFlags (path : Path) (flags : UInt32)
  | toStart (cursor : Nat)
  | toEnd (cursor : Nat)
  | next (cursor : Nat)
  | previous (cursor : Nat)

inductive Answer where
  | done
  | found (record : Option Record)
  | failed (error : Invalid)
  deriving DecidableEq

/-- What the decoder checks of what a request writes. -/
def Request.Storable : Request → Prop
  | .push record => record.Storable
  | .setOutput _ output => output.Valid
  | _ => True

def Request.isPush : Request → Bool
  | .push _ => true
  | _ => false

/-- The records, and for each cursor how many of them lie before it. -/
structure RecordList where
  records : List Record
  cursor : Nat → Nat

namespace RecordList

def new : RecordList := ⟨[], fun _ => 0⟩

def setFirst (a : RecordList) (path : Path) (f : Record → Record) (missing : Invalid) :
    RecordList × Answer :=
  match updateFirst (Record.at path) f a.records with
  | some records => ({ a with records }, .done)
  | none => (a, .failed missing)

def step (a : RecordList) : Request → RecordList × Answer
  | .push record =>
    match encode record with
    | .error error => (a, .failed error)
    | .ok _ =>
      if spoolSize a.records + recordSize record < 2 ^ 64 then
        ({ a with records := a.records ++ [record.stored] }, .done)
      else (a, .failed "record spool size overflow")
  | .find path => (a, .found (a.records.find? (Record.at path)))
  | .setOutput path output =>
    a.setFirst path (fun record => { record with output := some output.stored })
      "output record not found"
  | .setFinalFlags path flags =>
    a.setFirst path (fun record => { record with final_flags := flags })
      "final metadata record not found"
  | .toStart id => ({ a with cursor := Function.update a.cursor id 0 }, .done)
  | .toEnd id => ({ a with cursor := Function.update a.cursor id a.records.length }, .done)
  | .next id =>
    match a.records[a.cursor id]? with
    | some record =>
      ({ a with cursor := Function.update a.cursor id (a.cursor id + 1) }, .found (some record))
    | none => (a, .found none)
  | .previous id =>
    if a.cursor id = 0 then (a, .found none)
    else ({ a with cursor := Function.update a.cursor id (a.cursor id - 1) },
      .found a.records[a.cursor id - 1]?)

def run (a : RecordList) : List Request → RecordList × List Answer
  | [] => (a, [])
  | request :: requests =>
    let after := (a.step request).1.run requests
    (after.1, (a.step request).2 :: after.2)

end RecordList

/-- The errors a list answers with: a record or a spool that gets too long, and
a path that is not there. -/
def refusals : List Invalid :=
  ["record path exceeds limit", "ancestry exceeds limit", "record exceeds limit",
    "record spool size overflow", "output record not found", "final metadata record not found"]

theorem encode_refusal (h : encode record = .error error) :
    error ∈ refusals := by
  simp only [encode, putPath, bind, Except.bind] at h
  by_cases hsource : record.source.length < 2 ^ 32
  · by_cases hdestination : record.destination.length < 2 ^ 32
    · by_cases hancestry : record.ancestry.length ≥ 2 ^ 32
      · simp only [if_pos hsource, if_pos hdestination, if_pos hancestry] at h
        cases h
        decide
      · simp only [if_pos hsource, if_pos hdestination, if_neg hancestry] at h
        split at h
        · cases h
          decide
        · cases h
    · simp only [if_pos hsource, if_neg hdestination] at h
      cases h
      decide
  · simp only [if_neg hsource] at h
    cases h
    decide

theorem RecordList.step_refusal {a : RecordList}
    (h : (a.step request).2 = .failed error) : error ∈ refusals := by
  cases request with
  | push record =>
    rw [RecordList.step] at h
    cases hencode : encode record with
    | error refused =>
      rw [hencode] at h
      cases h
      exact encode_refusal hencode
    | ok bytes =>
      rw [hencode] at h
      by_cases hroom : spoolSize a.records + recordSize record < 2 ^ 64
      · simp only [if_pos hroom] at h
        cases h
      · simp only [if_neg hroom] at h
        cases h
        decide
  | find path => cases h
  | setOutput path output | setFinalFlags path flags =>
    rw [RecordList.step, RecordList.setFirst] at h
    split at h
    · cases h
    · cases h
      decide
  | toStart id => cases h
  | toEnd id => cases h
  | next id | previous id =>
    rw [RecordList.step] at h
    split at h <;> cases h

theorem RecordList.run_refusal {a : RecordList}
    (h : .failed error ∈ (a.run requests).2) : error ∈ refusals := by
  induction requests generalizing a with
  | nil => cases h
  | cons request requests ih =>
    rw [RecordList.run] at h
    rcases mem_cons.mp h with heq | hmem
    · exact RecordList.step_refusal heq.symm
    · exact ih hmem

theorem updateFirst_none
    (h : ∀ record ∈ records, ¬ p record = true) : updateFirst p f records = none := by
  induction records with
  | nil => rfl
  | cons record records ih =>
    rw [updateFirst, if_neg (h record mem_cons_self),
      ih fun other hother => h other (mem_cons_of_mem _ hother)]
    rfl

theorem updateFirst_append {p f before after} (h : ∀ other ∈ before, ¬ p other = true) (hp : p record = true) :
    updateFirst p f (before ++ record :: after) = some (before ++ f record :: after) := by
  induction before with
  | nil => exact if_pos hp
  | cons first before ih =>
    rw [cons_append, updateFirst, if_neg (h first mem_cons_self),
      ih fun other hother => h other (mem_cons_of_mem _ hother)]
    rfl

/-! ## Iteration over the list -/

namespace RecordList

theorem run_forward (a : RecordList) (id n : Nat) (h : n = a.records.length - a.cursor id) :
    (a.run (List.replicate n (.next id))).2 =
      (a.records.drop (a.cursor id)).map fun record => .found (some record) := by
  induction n generalizing a with
  | zero =>
    rw [drop_eq_nil_of_le (by omega)]
    rfl
  | succ n ih =>
    have hlt : a.cursor id < a.records.length := by omega
    have hnext : a.step (.next id) =
        ({ a with cursor := Function.update a.cursor id (a.cursor id + 1) },
          .found (some a.records[a.cursor id])) := by
      rw [step, getElem?_eq_getElem hlt]
    have hrest := ih { a with cursor := Function.update a.cursor id (a.cursor id + 1) } (by
      simp only [Function.update_self]
      omega)
    simp only [Function.update_self] at hrest
    rw [replicate_succ, run, hnext, drop_eq_getElem_cons hlt, map_cons]
    exact congrArg (_ :: ·) hrest

theorem run_reverse (a : RecordList) (id : Nat) (h : a.cursor id ≤ a.records.length) :
    (a.run (List.replicate (a.cursor id) (.previous id))).2 =
      (a.records.take (a.cursor id)).reverse.map fun record => .found (some record) := by
  generalize hn : a.cursor id = n at h ⊢
  induction n generalizing a with
  | zero => rfl
  | succ n ih =>
    have hnonzero : ¬ a.cursor id = 0 := by omega
    have hback : a.cursor id - 1 = n := by omega
    have hprevious : a.step (.previous id) =
        ({ a with cursor := Function.update a.cursor id n }, .found (some a.records[n])) := by
      rw [step, if_neg hnonzero, hback, getElem?_eq_getElem h]
    have hrest := ih { a with cursor := Function.update a.cursor id n } (Function.update_self ..)
      (Nat.le_of_lt h)
    rw [replicate_succ, run, hprevious, take_succ_eq_append_getElem h,
      reverse_append, map_append]
    exact congrArg (_ :: ·) hrest

end RecordList

end Ish.Fs
