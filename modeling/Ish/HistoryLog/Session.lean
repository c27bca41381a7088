import Ish.HistoryLog.Store
import Ish.Lib.EState

/-!
# Sessions — shells that share one history log

The model of `History::sync`, `apply_snapshot`, `add_in_dir`, `reset` and
`load_from` in `src/history.rs`, and of any number of shells that use one log.

`applied` stands for the tables that `apply_occurrence` fills (arena, usages,
directories, recall order): each is a function of the occurrences applied since
the last `clear`. Where filling them panics (an id or a table beyond 32 bits)
the shell is gone, as after `exit`: the log has already been written.
-/

namespace Ish.HistoryLog

open Ish.Lib

structure History where
  session_id : UInt64
  generation : Int64
  last_id : Int64
  applied : List Occurrence
  store : Store

namespace History

def empty (session_id : UInt64) (store : Store) : History :=
  { session_id, generation := 0, last_id := 0, applied := [], store }

def clear (history : History) : History := { history with applied := [], last_id := 0 }

def applyOccurrence (history : History) (occurrence : Occurrence) : History :=
  { history with
    applied := history.applied ++ [occurrence]
    last_id := if history.last_id ≤ occurrence.id then occurrence.id else history.last_id }

def applySnapshot (history : History) (snapshot : Snapshot) : History :=
  let history :=
    if snapshot.generation ≠ history.generation then
      { history.clear with generation := snapshot.generation }
    else history
  snapshot.occurrences.foldl applyOccurrence history

def sync (history : History) : StoreM History := do
  let (snapshot, store) ← history.store.snapshot history.generation history.last_id
  return { history with store }.applySnapshot snapshot

/-- `char::is_whitespace` -/
def isWhitespace (c : Char) : Bool :=
  let n := c.toNat
  (0x9 ≤ n && n ≤ 0xd) || n == 0x20 || n == 0x85 || n == 0xa0 || n == 0x1680 ||
    (0x2000 ≤ n && n ≤ 0x200a) || n == 0x2028 || n == 0x2029 || n == 0x202f ||
    n == 0x205f || n == 0x3000

/-- `line.trim().is_empty()` -/
def isBlank (line : List Char) : Bool := line.all isWhitespace

/-- The occurrence that `add_in_dir` hands to the store, which gives it its id. -/
def occurrence (history : History) (line : List Char) (cwd : Option (List UInt8))
    (now : UInt64) : Occurrence :=
  { id := history.last_id + 1
    command := line
    timestamp := now
    session_id := history.session_id
    cwd }

def addInDir (history : History) (line : List Char) (cwd : Option (List UInt8))
    (now : UInt64) : StoreM History := do
  if isBlank line then return history
  let (snapshot, store) ← history.store.append history.generation history.last_id
    (history.occurrence line cwd now)
  return { history with store }.applySnapshot snapshot

def reset (history : History) (now : UInt64) : StoreM History := do
  let (generation, store) ← history.store.reset now
  return { history.clear with store, generation }

/-- `load_from`, of a log that exists: a damaged log is salvaged once. -/
def loadFrom (session_id : UInt64) : StoreM History := fun disk =>
  let history := empty session_id { cursor := Cursor.default }
  match history.sync disk with
  | .ok history disk => .ok history disk
  | .error (.corrupt _ _) disk =>
    (do
      let (_, store) ← history.store.salvage
      { history with store }.sync) disk
  | .error e disk => .error e disk

end History

/-! ## Any number of shells -/

/-- One shell, by a number of its own. -/
abbrev Shell := Nat

/-- The log, the running shells, and the occurrences that are committed: those
whose append finished since the log was last reset. No code reads the last. -/
structure World where
  disk : Disk
  shells : Shell → Option History
  committed : List Occurrence

inductive Event where
  | load (shell : Shell) (session_id : UInt64)
  | sync (shell : Shell)
  | add_in_dir (shell : Shell) (line : List Char) (cwd : Option (List UInt8)) (now : UInt64)
  | reset (shell : Shell) (now : UInt64)
  /-- The shell dies in an append, after `written` bytes of its frame. -/
  | crash (shell : Shell) (line : List Char) (cwd : Option (List UInt8)) (now : UInt64)
      (written : Nat)
  | exit (shell : Shell)

/-- What became of an operation: a shell that is not running does nothing. -/
inductive Outcome where
  | done
  | failed (e : LogError)
  | absent
  deriving DecidableEq

namespace World

/-- The id that comes after the committed occurrences. -/
def nextId (committed : List Occurrence) : Int64 :=
  match committed.getLast? with
  | some occurrence => occurrence.id + 1
  | none => 1

/-- What an `add_in_dir` that succeeds commits; a blank line commits nothing. -/
def commit (committed : List Occurrence) (session_id : UInt64) (line : List Char)
    (cwd : Option (List UInt8)) (now : UInt64) : List Occurrence :=
  if History.isBlank line then committed
  else committed ++ [{
    id := nextId committed
    command := line
    timestamp := now
    session_id
    cwd }]

def setShell (world : World) (shell : Shell) (history : Option History) : World :=
  { world with shells := fun other => if other = shell then history else world.shells other }

/-- An operation of a running shell: when it fails the shell keeps its state. -/
def withShell (world : World) (shell : Shell) (op : History → StoreM History)
    (committed : History → List Occurrence) : Outcome × World :=
  match world.shells shell with
  | none => (.absent, world)
  | some history =>
    match op history world.disk with
    | .ok history' disk =>
      (.done, { world with disk, committed := committed history }.setShell shell history')
    | .error e disk => (.failed e, { world with disk })

def step (world : World) : Event → Outcome × World
  | .load shell session_id =>
    match world.shells shell with
    | some _ => (.absent, world)
    | none =>
      match History.loadFrom session_id world.disk with
      | .ok history disk => (.done, { world with disk }.setShell shell history)
      | .error e disk => (.failed e, { world with disk })
  | .sync shell => world.withShell shell History.sync fun _ => world.committed
  | .add_in_dir shell line cwd now =>
    world.withShell shell (fun history => history.addInDir line cwd now) fun history =>
      commit world.committed history.session_id line cwd now
  | .reset shell now => world.withShell shell (fun history => history.reset now) fun _ => []
  | .crash shell line cwd now written =>
    match world.shells shell with
    | none => (.absent, world)
    | some history =>
      if History.isBlank line then (.done, world.setShell shell none)
      else
        let disk := EState.after (history.store.appendTorn history.generation
          history.last_id (history.occurrence line cwd now) written world.disk)
        (.done, { world with disk }.setShell shell none)
  | .exit shell => (.done, world.setShell shell none)

def run (world : World) : List Event → World
  | [] => world
  | event :: events => (world.step event).2.run events

end World

end Ish.HistoryLog
