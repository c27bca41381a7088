import Ish.Scan.WorkQueue

/-!
# Scanning directories

The model of `ScanProgress`, `Outbox`, `run_task_tree` and
`scan_indexed_directory` in `crates/fdu-scan/src/indexed.rs`: threads that each
do one operation on the progress table, the channel or the work queue at a time.

What a directory holds, and what fails, shows when it is scanned: every tree, and
every pattern of failures, is that of some run. `faults` remembers the
directories whose scan met an error or an exclusion. When an outbox is flushed is
left open but for what the code always does. Nothing is cancelled, nobody stops
receiving, and a batch of fewer than `PUBLISH_ENTRIES` names never exceeds the
name storage.
-/

namespace Ish.Scan

abbrev DirectoryToken := Nat

/-- `NO_PARENT`, the first token that is not one. -/
def NO_PARENT : Nat := 2 ^ 32 - 1

def DIRECTORY_FINISH_BATCH_SIZE : Nat := 256

inductive NodeStatus where
  | Complete
  | Incomplete
  | Excluded
  deriving DecidableEq

structure ScanEntry where
  parent : DirectoryToken
  directory_token : Option DirectoryToken
  state : NodeStatus
  deriving DecidableEq

/-- An event about one directory. -/
inductive Notice where
  | DirectoryExcluded (directory : DirectoryToken)
  | DirectoryFailed (directory : DirectoryToken)
  deriving DecidableEq

inductive ScanEvent where
  | Started
  | Entries (entries : List ScanEntry)
  | DirectoriesFinished (finishes : List (DirectoryToken × Bool))
  | About (notice : Notice)
  | Finished
  deriving DecidableEq

/-! ## Progress -/

structure ScanProgress where
  parent : DirectoryToken → Option DirectoryToken
  pending : DirectoryToken → Nat
  incomplete : DirectoryToken → Bool
  pending_finishes : List (DirectoryToken × Bool)

namespace ScanProgress

def new : ScanProgress :=
  { parent := fun _ => none, pending := fun _ => 0, incomplete := fun _ => false
    pending_finishes := [] }

def register_root (p : ScanProgress) : ScanProgress :=
  { p with pending := Function.update p.pending 0 1 }

def register_child (p : ScanProgress) (parent child : DirectoryToken) : ScanProgress :=
  let pending := Function.update p.pending child 1
  { p with
    parent := Function.update p.parent child (some parent)
    incomplete := Function.update p.incomplete child false
    pending := Function.update pending parent (pending parent + 1) }

/-- The first store of a round of `finish_directory`. -/
def mark (p : ScanProgress) (token : DirectoryToken) (complete : Bool) : ScanProgress :=
  if complete then p else { p with incomplete := Function.update p.incomplete token true }

/-- The hold that a round of `finish_directory` releases. -/
def drop (p : ScanProgress) (token : DirectoryToken) : ScanProgress :=
  { p with pending := Function.update p.pending token (p.pending token - 1) }

/-- `push_finished`, with the event it sends. -/
def push_finished (p : ScanProgress) (token : DirectoryToken) (complete : Bool) :
    ScanProgress × List ScanEvent :=
  let finishes := p.pending_finishes ++ [(token, complete)]
  if finishes.length < DIRECTORY_FINISH_BATCH_SIZE then
    ({ p with pending_finishes := finishes }, [])
  else ({ p with pending_finishes := [] }, [.DirectoriesFinished finishes])

/-- `flush_finishes`, with the event it sends. -/
def flush_finishes (p : ScanProgress) : ScanProgress × List ScanEvent :=
  if p.pending_finishes.isEmpty then (p, [])
  else ({ p with pending_finishes := [] }, [.DirectoriesFinished p.pending_finishes])

variable (token : DirectoryToken) (p : ScanProgress) (complete : Bool)

@[simp] theorem mark_parent : (p.mark token complete).parent = p.parent := by
  unfold mark
  split <;> rfl

@[simp] theorem mark_pending : (p.mark token complete).pending = p.pending := by
  unfold mark
  split <;> rfl

@[simp] theorem mark_pending_finishes
    : (p.mark token complete).pending_finishes = p.pending_finishes := by
  unfold mark
  split <;> rfl

@[simp] theorem push_finished_parent : (p.push_finished token complete).1.parent = p.parent := by
  simp only [push_finished]
  split <;> rfl

@[simp] theorem push_finished_pending
    : (p.push_finished token complete).1.pending = p.pending := by
  simp only [push_finished]
  split <;> rfl

@[simp] theorem push_finished_incomplete
    : (p.push_finished token complete).1.incomplete = p.incomplete := by
  simp only [push_finished]
  split <;> rfl

end ScanProgress

/-! ## Threads -/

/-- `Outbox`; a task that is held is its token. -/
structure Outbox where
  batch : List ScanEntry
  notices : List Notice
  releases : List (DirectoryToken × Bool)
  held : List DirectoryToken

def Outbox.new : Outbox := { batch := [], notices := [], releases := [], held := [] }

/-- What a thread goes on with when its outbox is flushed. -/
inductive Resume where
  | scanning (token : DirectoryToken) (complete : Bool)
  | popHeld
  | done

/-- What a thread does next. -/
inductive Work where
  /-- It waits for a task. -/
  | idle
  -- `scan_indexed_task`
  | start (token : DirectoryToken)
  | scanning (token : DirectoryToken) (complete : Bool)
  | scanned (token : DirectoryToken) (complete : Bool)
  -- `run_task_tree`
  | popHeld
  | done
  -- `Outbox::flush`
  | flushing (after : Resume)
  | sending (after : Resume)
  | pushing (todo kept : List DirectoryToken) (after : Resume)
  | offered (task : DirectoryToken) (todo kept : List DirectoryToken) (after : Resume)
  | releasing (after : Resume)
  -- `finish_directory`
  | marking (token : DirectoryToken) (complete : Bool) (after : Resume)
  | dropping (token : DirectoryToken) (after : Resume)
  | finishing (token : DirectoryToken) (after : Resume)
  | finished (token : DirectoryToken) (complete : Bool) (after : Resume)
  -- the end of `scan_indexed`
  | joining
  | lastFlush
  | lastSend
  | gone

def Resume.work : Resume → Work
  | .scanning token complete => .scanning token complete
  | .popHeld => .popHeld
  | .done => .done

structure Local where
  work : Work
  outbox : Outbox

/-- What the threads share; `published` are the tasks that are in the queue. -/
structure Shared where
  next_token : Nat
  progress : ScanProgress
  published : Multiset DirectoryToken
  received : List ScanEvent
  faults : List DirectoryToken

variable {l : Limits}

/-- Where a thread goes when its task tree is done. -/
def afterTree : Thread l → Work
  | none => .joining
  | some _ => .idle

/-- The notices of an entry of the directory `token`. -/
def entryNotices (token : DirectoryToken) : NodeStatus → List Notice
  | .Incomplete => [.DirectoryFailed token]
  | _ => []

/-- `failed_task` -/
def Outbox.failed_task (o : Outbox) (token : DirectoryToken) : Outbox :=
  { o with
    notices := o.notices ++ [.DirectoryFailed token]
    releases := o.releases ++ [(token, false)] }

/-- What follows a task: its outbox is flushed, or the next one is popped. -/
def Follows (w : Work) : Prop := w = .popHeld ∨ w = .flushing .popHeld

/-- The next round of `finish_directory`, or the next release. -/
def afterFinish (p : ScanProgress) (token : DirectoryToken) (complete : Bool) (after : Resume) :
    Work :=
  match p.parent token with
  | none => .releasing after
  | some parent => .marking parent complete after

/-- One operation of a thread of the scan. -/
inductive Scans (g : Shared) (t : Thread l) : Local → Action DirectoryToken → Shared → Local → Prop where
  | begin (task : DirectoryToken) (left : Multiset DirectoryToken) (o : Outbox)
      (h : g.published = task ::ₘ left) :
      Scans g t ⟨.idle, o⟩ (.begin task) { g with published := left } ⟨.start task, o⟩
  | opened (token : DirectoryToken) (o : Outbox) :
      Scans g t ⟨.start token, o⟩ .tau g ⟨.scanning token true, o⟩
  | reopenFailed (token : DirectoryToken) (o : Outbox) (w : Work) (hw : Follows w) :
      Scans g t ⟨.start token, o⟩ .tau { g with faults := token :: g.faults }
        ⟨w, o.failed_task token⟩
  | reopenExcluded (token : DirectoryToken) (o : Outbox) :
      Scans g t ⟨.start token, o⟩ .tau { g with faults := token :: g.faults }
        ⟨.popHeld, { o with
          notices := o.notices ++ [.DirectoryExcluded token]
          releases := o.releases ++ [(token, false)] }⟩
  | file (token : DirectoryToken) (complete : Bool) (o : Outbox) :
      Scans g t ⟨.scanning token complete, o⟩ .tau g
        ⟨.scanning token complete, { o with batch := o.batch ++ [⟨token, none, .Complete⟩] }⟩
  | faulty (token : DirectoryToken) (complete : Bool) (o : Outbox) (state : NodeStatus)
      (h : state ≠ .Complete) :
      Scans g t ⟨.scanning token complete, o⟩ .tau { g with faults := token :: g.faults }
        ⟨.scanning token false, { o with
          notices := o.notices ++ entryNotices token state
          batch := o.batch ++ [⟨token, none, state⟩] }⟩
  | directory (token : DirectoryToken) (complete : Bool) (o : Outbox)
      (h : g.next_token < NO_PARENT) :
      Scans g t ⟨.scanning token complete, o⟩ .tau
        { g with
          next_token := g.next_token + 1
          progress := g.progress.register_child token g.next_token }
        ⟨.scanning token complete, { o with
          held := o.held ++ [g.next_token]
          batch := o.batch ++ [⟨token, some g.next_token, .Complete⟩] }⟩
  | flushEntries (token : DirectoryToken) (complete : Bool) (o : Outbox) :
      Scans g t ⟨.scanning token complete, o⟩ .tau g ⟨.flushing (.scanning token complete), o⟩
  | streamFailed (token : DirectoryToken) (complete : Bool) (o : Outbox) :
      Scans g t ⟨.scanning token complete, o⟩ .tau { g with faults := token :: g.faults }
        ⟨.scanned token false, { o with notices := o.notices ++ [.DirectoryFailed token] }⟩
  | scanFailed (token : DirectoryToken) (complete : Bool) (o : Outbox) (w : Work) (hw : Follows w) :
      Scans g t ⟨.scanning token complete, o⟩ .tau { g with faults := token :: g.faults }
        ⟨w, o.failed_task token⟩
  | streamEnds (token : DirectoryToken) (complete : Bool) (o : Outbox) :
      Scans g t ⟨.scanning token complete, o⟩ .tau g ⟨.scanned token complete, o⟩
  | scanned (token : DirectoryToken) (complete : Bool) (o : Outbox) (w : Work) (hw : Follows w)
      (hroot : token = 0 → w = .flushing .popHeld) :
      Scans g t ⟨.scanned token complete, o⟩ .tau g
        ⟨w, { o with releases := o.releases ++ [(token, complete)] }⟩
  | pop (task : DirectoryToken) (held : List DirectoryToken) (o : Outbox)
      (h : o.held = held ++ [task]) :
      Scans g t ⟨.popHeld, o⟩ .tau g ⟨.start task, { o with held }⟩
  | popNone (o : Outbox) (h : o.held = []) :
      Scans g t ⟨.popHeld, o⟩ .tau g ⟨.flushing .done, o⟩
  | sendNoEntries (after : Resume) (o : Outbox) (h : o.batch = []) :
      Scans g t ⟨.flushing after, o⟩ .tau g ⟨.sending after, o⟩
  | sendEntries (after : Resume) (o : Outbox) (h : o.batch ≠ []) :
      Scans g t ⟨.flushing after, o⟩ .tau
        { g with received := g.received ++ [.Entries o.batch] }
        ⟨.sending after, { o with batch := [] }⟩
  | sendNotice (after : Resume) (o : Outbox) (notice : Notice) (notices : List Notice)
      (h : o.notices = notice :: notices) :
      Scans g t ⟨.sending after, o⟩ .tau { g with received := g.received ++ [.About notice] }
        ⟨.sending after, { o with notices }⟩
  | drainHeld (after : Resume) (o : Outbox) (h : o.notices = []) :
      Scans g t ⟨.sending after, o⟩ .tau g ⟨.pushing o.held [] after, { o with held := [] }⟩
  | offer (task : DirectoryToken) (todo kept : List DirectoryToken) (after : Resume) (o : Outbox) :
      Scans g t ⟨.pushing (task :: todo) kept after, o⟩ (.offer task) g
        ⟨.offered task todo kept after, o⟩
  | refuse (task : DirectoryToken) (todo kept : List DirectoryToken) (after : Resume) (o : Outbox) :
      Scans g t ⟨.offered task todo kept after, o⟩ (.refuse task) g
        ⟨.pushing todo (kept ++ [task]) after, o⟩
  | publish (task : DirectoryToken) (todo kept : List DirectoryToken) (after : Resume) (o : Outbox) :
      Scans g t ⟨.offered task todo kept after, o⟩ (.publish task)
        { g with published := task ::ₘ g.published } ⟨.pushing todo kept after, o⟩
  | pushed (kept : List DirectoryToken) (after : Resume) (o : Outbox) :
      Scans g t ⟨.pushing [] kept after, o⟩ .tau g ⟨.releasing after, { o with held := kept }⟩
  | release (after : Resume) (o : Outbox) (token : DirectoryToken) (complete : Bool)
      (releases : List (DirectoryToken × Bool)) (h : o.releases = (token, complete) :: releases) :
      Scans g t ⟨.releasing after, o⟩ .tau g ⟨.marking token complete after, { o with releases }⟩
  | released (after : Resume) (o : Outbox) (h : o.releases = []) :
      Scans g t ⟨.releasing after, o⟩ .tau g ⟨after.work, o⟩
  | mark (token : DirectoryToken) (complete : Bool) (after : Resume) (o : Outbox) :
      Scans g t ⟨.marking token complete after, o⟩ .tau
        { g with progress := g.progress.mark token complete } ⟨.dropping token after, o⟩
  | dropLast (token : DirectoryToken) (after : Resume) (o : Outbox)
      (h : g.progress.pending token = 1) :
      Scans g t ⟨.dropping token after, o⟩ .tau { g with progress := g.progress.drop token }
        ⟨.finishing token after, o⟩
  | dropOne (token : DirectoryToken) (after : Resume) (o : Outbox)
      (h : g.progress.pending token ≠ 1) :
      Scans g t ⟨.dropping token after, o⟩ .tau { g with progress := g.progress.drop token }
        ⟨.releasing after, o⟩
  | load (token : DirectoryToken) (after : Resume) (o : Outbox) :
      Scans g t ⟨.finishing token after, o⟩ .tau g
        ⟨.finished token (!g.progress.incomplete token) after, o⟩
  | finishDirectory (token : DirectoryToken) (complete : Bool) (after : Resume) (o : Outbox) :
      Scans g t ⟨.finished token complete after, o⟩ .tau
        { g with
          progress := (g.progress.push_finished token complete).1
          received := g.received ++ (g.progress.push_finished token complete).2 }
        ⟨afterFinish g.progress token complete after, o⟩
  | finish (o : Outbox) : Scans g t ⟨.done, o⟩ .finish g ⟨afterTree t, o⟩

/-- The end of `scan_indexed`, once the workers are joined. -/
inductive Ends (g : Shared) : Local → Shared → Local → Prop where
  | join (o : Outbox) : Ends g ⟨.joining, o⟩ g ⟨.lastFlush, o⟩
  | flushFinishes (o : Outbox) :
      Ends g ⟨.lastFlush, o⟩
        { g with
          progress := g.progress.flush_finishes.1
          received := g.received ++ g.progress.flush_finishes.2 }
        ⟨.lastSend, o⟩
  | send (o : Outbox) :
      Ends g ⟨.lastSend, o⟩ { g with received := g.received ++ [.Finished] } ⟨.gone, o⟩

/-- The threads of a scan and what they share. -/
structure ScanContext (l : Limits) where
  shared : Shared
  threads : Thread l → Local

/-- The root's task is about to be scanned. -/
def ScanContext.start (l : Limits) : ScanContext l :=
  { shared := {
      next_token := 1, progress := ScanProgress.new.register_root, published := 0
      received := [.Started], faults := [] }
    threads := fun
      | none => ⟨.start 0, .new⟩
      | some _ => ⟨.idle, .new⟩ }

def ScanContext.goto (s : ScanContext l) (t : Thread l) (g : Shared) (v : Local) : ScanContext l :=
  { shared := g, threads := Function.update s.threads t v }

@[simp] theorem ScanContext.goto_self (s : ScanContext l) (t : Thread l) (g : Shared) (v : Local) :
    (s.goto t g v).threads t = v :=
  Function.update_self ..

theorem ScanContext.goto_of_ne (s : ScanContext l) {t u} (g : Shared) (v : Local)
    (h : u ≠ t) : (s.goto t g v).threads u = s.threads u :=
  Function.update_of_ne h ..

end Ish.Scan
