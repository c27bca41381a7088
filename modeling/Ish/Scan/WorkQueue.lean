import Ish.Lib.Threads
import Mathlib.Data.Multiset.AddSub
import Mathlib.Data.Fintype.Option

/-!
# The work queue of a scan

The model of `IndexedWorkQueue` in `crates/fdu-scan/src/indexed.rs`: the workers
and the thread that scans the root, each about to do one operation on the
counters, the mutex or a condition variable. A thread that looks for a task may
miss one that is there, as a scan of the deques one after the other can; a
condition variable may wake a thread for nothing. The sampling that opens the
gate of the extra workers may happen whenever a task runs. Nothing is cancelled.
-/

namespace Ish.Scan

open Ish.Lib

/-- `IndexedScanLimits`, as far as the queue uses it. -/
structure Limits where
  workers : Nat
  base_workers : Nat
  queued_directories : Nat

namespace Limits

def workerCount (l : Limits) : Nat := max l.workers 1

def base (l : Limits) : Nat := min (max l.base_workers 1) l.workerCount

def capacity (l : Limits) : Nat := max l.queued_directories 1

end Limits

/-- The thread that scans the root, or a worker. -/
abbrev Thread (l : Limits) := Option (Fin l.workerCount)

variable {l : Limits} {Task : Type}

/-- `index < self.base_workers`, of a worker. -/
def BaseWorker : Thread l → Prop
  | none => False
  | some index => index.val < l.base

instance (t : Thread l) : Decidable (BaseWorker t) := by
  unfold BaseWorker
  split <;> infer_instance

/-- `IndexedWorkQueue`. Of the mutex `park`, whether it is held; `tasks` are the
tasks in the deques, each in that of a worker or in the injector (`none`). -/
structure IndexedWorkQueue (l : Limits) (Task : Type) where
  tasks : Multiset (Thread l × Task)
  queued : Nat
  pending : Nat
  closed : Bool
  sleepers : Nat
  extra_workers_open : Bool
  park : Bool

/-- `IndexedWorkQueue::new` -/
def IndexedWorkQueue.new (l : Limits) (Task : Type) : IndexedWorkQueue l Task :=
  { tasks := 0, queued := 0, pending := 1, closed := false, sleepers := 0
    extra_workers_open := l.workerCount ≤ max l.base_workers 1, park := false }

/-- The operation a thread does next. -/
inductive Pc (Task : Type) where
  -- `next_task`: is the queue closed, is the gate open
  | top
  | gate
  | gateLock
  | gateOpen
  | gateClosed
  | gateWait
  | gateWaiting
  | gateWoken
  | gateUnlock
  -- a task is looked for
  | find
  | took (task : Task)
  -- the thread goes to sleep
  | parkLock
  | parkCount
  | parkQueued
  | parkClosed
  | parkWait
  | parkWaiting
  | parkWoken
  | unpark
  | parkUnlock
  -- a task runs
  | running
  -- `try_push`
  | pushClosed (task : Task)
  | pushCapacity (task : Task)
  | pushPending (task : Task)
  | pushQueued (task : Task)
  | pushTask (task : Task)
  | pushSleepers
  | pushLock
  | pushUnlock
  | pushNotify
  -- `note_sample`
  | openSwap
  | openLock
  | openUnlock
  | openNotify
  -- `release_hold` and `close`
  | release
  | closeSwap
  | closeLock
  | closeUnlock
  | notifyWake
  | notifyGate
  | returned
  deriving DecidableEq

/-- What a step of the queue means to the scan. -/
inductive Action (Task : Type) where
  | tau
  /-- A task was taken and runs. -/
  | begin (task : Task)
  /-- `try_push` is called. -/
  | offer (task : Task)
  /-- `try_push` returns the task. -/
  | refuse (task : Task)
  /-- The task is in a deque. -/
  | publish (task : Task)
  /-- `run_task_tree` has returned. -/
  | finish

/-- Where a thread goes after `release_hold`. -/
def home : Thread l → Pc Task
  | none => .returned
  | some _ => .top

/-- One operation of a thread on the queue. -/
inductive Operation (q : IndexedWorkQueue l Task) (t : Thread l) :
    Pc Task → Action Task → IndexedWorkQueue l Task → Pc Task → Prop where
  | topClosed (h : q.closed = true) : Operation q t .top .tau q .returned
  | topBase (h : q.closed = false) (hbase : BaseWorker t) : Operation q t .top .tau q .find
  | topExtra (h : q.closed = false) (hbase : ¬ BaseWorker t) : Operation q t .top .tau q .gate
  | gateIn (h : q.extra_workers_open = true) : Operation q t .gate .tau q .find
  | gateShut (h : q.extra_workers_open = false) : Operation q t .gate .tau q .gateLock
  | gateLock (h : q.park = false) : Operation q t .gateLock .tau { q with park := true } .gateOpen
  | gateOpened (h : q.extra_workers_open = true) : Operation q t .gateOpen .tau q .gateUnlock
  | gateStillShut (h : q.extra_workers_open = false) : Operation q t .gateOpen .tau q .gateClosed
  | gateClosed (h : q.closed = true) : Operation q t .gateClosed .tau q .gateUnlock
  | gateNotClosed (h : q.closed = false) : Operation q t .gateClosed .tau q .gateWait
  | gateWait : Operation q t .gateWait .tau { q with park := false } .gateWaiting
  | gateWoken (h : q.park = false) :
      Operation q t .gateWoken .tau { q with park := true } .gateUnlock
  | gateUnlock : Operation q t .gateUnlock .tau { q with park := false } .top
  /-- `local.pop` or `steal_batch_and_pop`: the thief also moves tasks to its own
  deque. -/
  | findTask (place : Thread l) (task : Task) (left moved : Multiset (Thread l × Task))
      (h : q.tasks = (place, task) ::ₘ (left + moved)) :
      Operation q t .find .tau
        { q with tasks := left + moved.map fun found => (t, found.2) } (.took task)
  | findNone : Operation q t .find .tau q .parkLock
  | took (task : Task) :
      Operation q t (.took task) (.begin task) { q with queued := q.queued - 1 } .running
  | parkLock (h : q.park = false) : Operation q t .parkLock .tau { q with park := true } .parkCount
  | parkCount :
      Operation q t .parkCount .tau { q with sleepers := q.sleepers + 1 } .parkQueued
  | parkWork (h : 0 < q.queued) : Operation q t .parkQueued .tau q .unpark
  | parkNoWork (h : q.queued = 0) : Operation q t .parkQueued .tau q .parkClosed
  | parkClosed (h : q.closed = true) : Operation q t .parkClosed .tau q .unpark
  | parkNotClosed (h : q.closed = false) : Operation q t .parkClosed .tau q .parkWait
  | parkWait : Operation q t .parkWait .tau { q with park := false } .parkWaiting
  | parkWoken (h : q.park = false) : Operation q t .parkWoken .tau { q with park := true } .unpark
  | unpark : Operation q t .unpark .tau { q with sleepers := q.sleepers - 1 } .parkUnlock
  | parkUnlock : Operation q t .parkUnlock .tau { q with park := false } .top
  | offer (task : Task) : Operation q t .running (.offer task) q (.pushClosed task)
  | pushClosed (task : Task) (h : q.closed = true) :
      Operation q t (.pushClosed task) (.refuse task) q .running
  | pushNotClosed (task : Task) (h : q.closed = false) :
      Operation q t (.pushClosed task) .tau q (.pushCapacity task)
  | pushFull (task : Task) (h : l.capacity ≤ q.queued) :
      Operation q t (.pushCapacity task) (.refuse task) q .running
  | pushRoom (task : Task) (h : q.queued < l.capacity) :
      Operation q t (.pushCapacity task) .tau q (.pushPending task)
  | pushPending (task : Task) :
      Operation q t (.pushPending task) .tau { q with pending := q.pending + 1 } (.pushQueued task)
  | pushQueued (task : Task) :
      Operation q t (.pushQueued task) .tau { q with queued := q.queued + 1 } (.pushTask task)
  | pushTask (task : Task) :
      Operation q t (.pushTask task) (.publish task) { q with tasks := (t, task) ::ₘ q.tasks }
        .pushSleepers
  | pushAwake (h : q.sleepers = 0) : Operation q t .pushSleepers .tau q .running
  | pushAsleep (h : 0 < q.sleepers) : Operation q t .pushSleepers .tau q .pushLock
  | pushLock (h : q.park = false) : Operation q t .pushLock .tau { q with park := true } .pushUnlock
  | pushUnlock : Operation q t .pushUnlock .tau { q with park := false } .pushNotify
  | sample : Operation q t .running .tau q .openSwap
  | openAgain (h : q.extra_workers_open = true) : Operation q t .openSwap .tau q .running
  | openFirst (h : q.extra_workers_open = false) :
      Operation q t .openSwap .tau { q with extra_workers_open := true } .openLock
  | openLock (h : q.park = false) : Operation q t .openLock .tau { q with park := true } .openUnlock
  | openUnlock : Operation q t .openUnlock .tau { q with park := false } .openNotify
  | finish : Operation q t .running .finish q .release
  | releaseLast (h : q.pending = 1) :
      Operation q t .release .tau { q with pending := 0 } .closeSwap
  | releaseOne (h : q.pending ≠ 1) :
      Operation q t .release .tau { q with pending := q.pending - 1 } (home t)
  | closeAgain (h : q.closed = true) : Operation q t .closeSwap .tau q (home t)
  | closeFirst (h : q.closed = false) :
      Operation q t .closeSwap .tau { q with closed := true } .closeLock
  | closeLock (h : q.park = false) :
      Operation q t .closeLock .tau { q with park := true } .closeUnlock
  | closeUnlock : Operation q t .closeUnlock .tau { q with park := false } .notifyWake

/-- The queue and its threads. -/
structure Pool (l : Limits) (Task : Type) where
  queue : IndexedWorkQueue l Task
  pc : Thread l → Pc Task

namespace Pool

/-- The root's task runs, and every worker is about to ask for one. -/
def start (l : Limits) (Task : Type) : Pool l Task :=
  { queue := .new l Task, pc := fun
      | none => .running
      | some _ => .top }

def goto (s : Pool l Task) (t : Thread l) (p : Pc Task) : Pool l Task :=
  { s with pc := Function.update s.pc t p }

@[simp] theorem goto_self (s : Pool l Task) (t : Thread l) (p : Pc Task) : (s.goto t p).pc t = p :=
  Function.update_self ..

theorem goto_of_ne (s : Pool l Task) {t u} (p : Pc Task) (h : u ≠ t) :
    (s.goto t p).pc u = s.pc u :=
  Function.update_of_ne h ..

/-- A waiter of `wake` that is notified. -/
def wake : Pc Task → Pc Task
  | .parkWaiting => .parkWoken
  | p => p

/-- A waiter of `gate` that is notified. -/
def wakeGate : Pc Task → Pc Task
  | .gateWaiting => .gateWoken
  | p => p

/-- One step of the thread `t`. -/
inductive Step (s : Pool l Task) (t : Thread l) : Action Task → Pool l Task → Prop where
  | own {a : Action Task} {q : IndexedWorkQueue l Task} {p : Pc Task}
      (h : Operation s.queue t (s.pc t) a q p) :
      Step s t a { queue := q, pc := Function.update s.pc t p }
  /-- `notify_one` -/
  | notifyOne (h : s.pc t = .pushNotify) (u : Thread l) (hu : s.pc u = .parkWaiting) :
      Step s t .tau ((s.goto u .parkWoken).goto t .running)
  | notifyNone (h : s.pc t = .pushNotify) (hnone : ∀ u, s.pc u ≠ .parkWaiting) :
      Step s t .tau (s.goto t .running)
  /-- `notify_all` -/
  | notifyWake (h : s.pc t = .notifyWake) :
      Step s t .tau (Pool.goto { s with pc := wake ∘ s.pc } t .notifyGate)
  | notifyGate (h : s.pc t = .notifyGate) :
      Step s t .tau (Pool.goto { s with pc := wakeGate ∘ s.pc } t (home t))
  | openNotify (h : s.pc t = .openNotify) :
      Step s t .tau (Pool.goto { s with pc := wakeGate ∘ s.pc } t .running)
  /-- A waiter that wakes for nothing. -/
  | spuriousWake (h : s.pc t = .parkWaiting) : Step s t .tau (s.goto t .parkWoken)
  | spuriousGate (h : s.pc t = .gateWaiting) : Step s t .tau (s.goto t .gateWoken)

inductive Reachable : Pool l Task → Prop where
  | start : Reachable (start l Task)
  | step {s s' : Pool l Task} {t : Thread l} {a : Action Task} (h : Reachable s)
      (hstep : Step s t a s') : Reachable s'

end Pool

end Ish.Scan
