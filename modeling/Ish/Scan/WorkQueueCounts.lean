import Ish.Scan.WorkQueue
import Mathlib.Data.Fintype.BigOperators

/-!
# The counters of the work queue

What the mutex and the counters `queued`, `pending` and `sleepers` stand for, as
sums over the threads: each operation changes a counter by what the thread's own
share of it changes.
-/

namespace Ish.Scan

open Ish.Lib.Threads Function

variable {l : Limits} {Task : Type}

/-! ## Shares -/

/-- Whether a thread holds `park`. -/
def parkShare : Pc Task → Nat
  | .gateOpen | .gateClosed | .gateWait | .gateUnlock | .parkCount | .parkQueued | .parkClosed
  | .parkWait | .unpark | .parkUnlock | .pushUnlock | .openUnlock | .closeUnlock => 1
  | _ => 0

/-- Whether a thread is counted in `sleepers`. -/
def sleeperShare : Pc Task → Nat
  | .parkQueued | .parkClosed | .parkWait | .parkWaiting | .parkWoken | .unpark => 1
  | _ => 0

/-- The tasks a thread is about to put in a deque. -/
def pushedShare : Pc Task → Nat
  | .pushTask _ => 1
  | _ => 0

/-- The tasks a thread has taken out of a deque and still counts in `queued`. -/
def takenShare : Pc Task → Nat
  | .took _ => 1
  | _ => 0

/-- The tasks a thread has counted in `pending` and not put in a deque yet. -/
def offeredShare : Pc Task → Nat
  | .pushQueued _ | .pushTask _ => 1
  | _ => 0

/-- Whether a thread runs a task, or has not released its hold on `pending`. -/
def runningShare : Pc Task → Nat
  | .took _ | .running | .pushClosed _ | .pushCapacity _ | .pushPending _ | .pushQueued _
  | .pushTask _ | .pushSleepers | .pushLock | .pushUnlock | .pushNotify | .openSwap | .openLock
  | .openUnlock | .openNotify | .release => 1
  | _ => 0

variable (t : Thread l)

@[simp ↓ high] theorem parkShare_home : parkShare (home t : Pc Task) = 0 := by
  cases t <;> rfl

@[simp ↓ high] theorem sleeperShare_home : sleeperShare (home t : Pc Task) = 0 := by
  cases t <;> rfl

@[simp ↓ high] theorem pushedShare_home : pushedShare (home t : Pc Task) = 0 := by
  cases t <;> rfl

@[simp ↓ high] theorem takenShare_home : takenShare (home t : Pc Task) = 0 := by
  cases t <;> rfl

@[simp ↓ high] theorem offeredShare_home : offeredShare (home t : Pc Task) = 0 := by
  cases t <;> rfl

@[simp ↓ high] theorem runningShare_home : runningShare (home t : Pc Task) = 0 := by
  cases t <;> rfl

/-! ## Operations -/

variable {q q' : IndexedWorkQueue l Task} {t : Thread l} {p p' : Pc Task} {a : Action Task}

theorem Operation.park_share (h : Operation q t p a q' p') (hheld : parkShare p = 1 → q.park = true) :
    parkShare p' + q.park.toNat = parkShare p + q'.park.toNat := by
  cases h <;> simp_all [parkShare]

theorem Operation.sleepers_share (h : Operation q t p a q' p')
    (hcounted : sleeperShare p ≤ q.sleepers) :
    sleeperShare p' + q.sleepers = sleeperShare p + q'.sleepers := by
  cases h <;> simp_all [sleeperShare]
  omega

theorem Operation.queued_share (h : Operation q t p a q' p') (hcounted : takenShare p ≤ q.queued) :
    pushedShare p' + takenShare p' + q'.tasks.card + q.queued =
      pushedShare p + takenShare p + q.tasks.card + q'.queued := by
  cases h <;> simp_all [pushedShare, takenShare] <;> omega

theorem Operation.pending_share (h : Operation q t p a q' p')
    (hcounted : runningShare p ≤ q.pending) :
    offeredShare p' + runningShare p' + q'.tasks.card + q.pending =
      offeredShare p + runningShare p + q.tasks.card + q'.pending := by
  cases h <;> simp_all [offeredShare, runningShare] <;> omega

/-! ## Pools -/

/-- The thread-independent shares of all threads. -/
abbrev shares (share : Pc Task → Nat) (pc : Thread l → Pc Task) : Nat :=
  total (fun _ => share) pc

/-- The tasks that are queued: in a deque, or on their way into one. -/
def Pool.queuedTasks (s : Pool l Task) : Nat := s.queue.tasks.card + shares offeredShare s.pc

/-- The tasks that workers run. -/
def Pool.runningTasks (s : Pool l Task) : Nat :=
  ∑ index, runningShare (s.pc (some index))

/-- The root's hold. -/
def Pool.rootHold (s : Pool l Task) : Nat := runningShare (s.pc none)

/-- **What the counters stand for.** -/
structure Pool.Counted (s : Pool l Task) : Prop where
  park : shares parkShare s.pc = s.queue.park.toNat
  sleepers : s.queue.sleepers = shares sleeperShare s.pc
  queued : s.queue.queued = s.queue.tasks.card + shares (fun p => pushedShare p + takenShare p) s.pc
  pending : s.queue.pending =
    s.queue.tasks.card + shares (fun p => offeredShare p + runningShare p) s.pc

variable {s : Pool l Task}

theorem Pool.Counted.of_shares (h : s.Counted) {pc}
    (hshares : ∀ u, parkShare (pc u) = parkShare (s.pc u) ∧
      sleeperShare (pc u) = sleeperShare (s.pc u) ∧
      pushedShare (pc u) + takenShare (pc u) = pushedShare (s.pc u) + takenShare (s.pc u) ∧
      offeredShare (pc u) + runningShare (pc u) = offeredShare (s.pc u) + runningShare (s.pc u)) :
    Pool.Counted { s with pc } where
  park := (total_congr fun u => (hshares u).1).trans h.park
  sleepers := h.sleepers.trans (total_congr fun u => (hshares u).2.1).symm
  queued := h.queued.trans (congrArg _ (total_congr fun u => (hshares u).2.2.1).symm)
  pending := h.pending.trans (congrArg _ (total_congr fun u => (hshares u).2.2.2).symm)

/-- A step of one thread. -/
theorem Pool.Counted.own (hs : s.Counted) (h : Operation s.queue t (s.pc t) a q' p') :
    Pool.Counted { queue := q', pc := Function.update s.pc t p' } := by
  obtain ⟨hpark, hsleepers, hqueued, hpending⟩ := hs
  simp only [shares] at hpark hsleepers hqueued hpending
  constructor
  · have hmove := total_update (fun _ => parkShare) s.pc t p'
    have hle := le_total (fun _ => parkShare) s.pc t
    have hshare := h.park_share fun hone => by
      cases hheld : s.queue.park with
      | true => rfl
      | false =>
        rw [hheld, Bool.toNat_false] at hpark
        omega
    simp only [shares]
    omega
  · have hmove := total_update (fun _ => sleeperShare) s.pc t p'
    have hle := le_total (fun _ => sleeperShare) s.pc t
    have hshare := h.sleepers_share (by omega)
    simp only [shares]
    omega
  · have hmove := total_update (fun _ p => pushedShare p + takenShare p) s.pc t p'
    have hle := le_total (fun _ p => pushedShare p + takenShare p) s.pc t
    have hshare := h.queued_share (by omega)
    simp only [shares]
    omega
  · have hmove := total_update (fun _ p => offeredShare p + runningShare p) s.pc t p'
    have hle := le_total (fun _ p => offeredShare p + runningShare p) s.pc t
    have hshare := h.pending_share (by omega)
    simp only [shares]
    omega

/-- Moving a thread without a change of its shares. -/
theorem Pool.Counted.goto (hs : s.Counted)
    (hpark : parkShare p' = parkShare (s.pc t)) (hsleeper : sleeperShare p' = sleeperShare (s.pc t))
    (hqueued : pushedShare p' + takenShare p' = pushedShare (s.pc t) + takenShare (s.pc t))
    (hpending : offeredShare p' + runningShare p' =
      offeredShare (s.pc t) + runningShare (s.pc t)) : (s.goto t p').Counted := by
  apply hs.of_shares
  intro u
  by_cases hu : u = t
  · subst hu
    rw [update_self]
    exact ⟨hpark, hsleeper, hqueued, hpending⟩
  · rw [update_of_ne hu]
    exact ⟨rfl, rfl, rfl, rfl⟩

theorem Pool.Counted.wake (hs : s.Counted) : Pool.Counted { s with pc := Pool.wake ∘ s.pc } := by
  apply hs.of_shares
  intro u
  rw [comp_apply]
  cases s.pc u <;> exact ⟨rfl, rfl, rfl, rfl⟩

theorem Pool.Counted.wakeGate (hs : s.Counted) :
    Pool.Counted { s with pc := Pool.wakeGate ∘ s.pc } := by
  apply hs.of_shares
  intro u
  rw [comp_apply]
  cases s.pc u <;> exact ⟨rfl, rfl, rfl, rfl⟩

/-- **Each step keeps the counts.** -/
theorem Pool.Counted.step {s s'} (hs : s.Counted) (h : Pool.Step s t a s') :
    s'.Counted := by
  cases h with
  | own h => exact hs.own h
  | notifyOne h u hu =>
    have hwoken : (s.goto u .parkWoken).Counted := by
      apply hs.goto <;> rw [hu] <;> rfl
    have hne : t ≠ u := by
      rintro rfl
      rw [h] at hu
      cases hu
    have hpc : (s.goto u .parkWoken).pc t = .pushNotify :=
      (update_of_ne hne _ _).trans h
    apply hwoken.goto <;> rw [hpc] <;> rfl
  | notifyNone h hnone => apply hs.goto <;> rw [h] <;> rfl
  | notifyWake h => apply hs.wake.goto <;> simp only [comp_apply, h] <;> rfl
  | notifyGate h => apply hs.wakeGate.goto <;> simp [h, Pool.wakeGate] <;> rfl
  | openNotify h => apply hs.wakeGate.goto <;> simp only [comp_apply, h] <;> rfl
  | spuriousWake h => apply hs.goto <;> rw [h] <;> rfl
  | spuriousGate h => apply hs.goto <;> rw [h] <;> rfl

/-- Threads that all share nothing but the root. -/
theorem shares_start {share} (htop : share .top = 0) :
    shares share (Pool.start l Task).pc = share .running := by
  rw [shares, total, Fintype.sum_option]
  simp [Pool.start, htop]

theorem Pool.Counted.start (l : Limits) (Task : Type) : (Pool.start l Task).Counted where
  park := shares_start rfl
  sleepers := by
    rw [shares_start rfl]
    rfl
  queued := by
    rw [shares_start rfl]
    rfl
  pending := by
    rw [shares_start rfl]
    rfl

/-- **`pending`** counts the queued tasks, the running ones and the root's hold. -/
theorem Pool.Counted.pending_eq (h : s.Counted) :
    s.queue.pending = s.queuedTasks + s.runningTasks + s.rootHold := by
  have hsplit : shares (fun p => offeredShare p + runningShare p) s.pc =
      shares offeredShare s.pc + shares runningShare s.pc :=
    Finset.sum_add_distrib
  have hroot : shares runningShare s.pc = s.rootHold + s.runningTasks :=
    Fintype.sum_option _
  rw [h.pending, hsplit, hroot, Pool.queuedTasks]
  omega

end Ish.Scan
