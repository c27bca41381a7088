import Ish.Scan.WorkQueueEnd
import Ish.Scan.Verdict

/-!
# The scan as a whole

The threads of a scan and their work queue. A thread scans while it runs a task;
what both sides see of a step, such as a task that is taken or offered, they do
together. Once all threads have returned, the root's thread sends what is left.
-/

namespace Ish.Scan

open Ish.Lib.Threads

variable {l : Limits}

structure System (l : Limits) where
  pool : Pool l DirectoryToken
  scan : ScanContext l

namespace System

def start (l : Limits) : System l := { pool := .start l DirectoryToken, scan := .start l }

/-- One step of the thread `t`. -/
inductive Step (s : System l) (t : Thread l) : System l → Prop where
  | queue {pool : Pool l DirectoryToken} (h : s.pool.Step t .tau pool) : Step s t { s with pool }
  | scan {g : Shared} {v : Local} (hrun : s.pool.pc t = .running)
      (h : Scans s.scan.shared t (s.scan.threads t) .tau g v) :
      Step s t { s with scan := s.scan.goto t g v }
  | both {pool : Pool l DirectoryToken} {g : Shared} {v : Local} {a : Action DirectoryToken}
      (ha : a ≠ .tau) (hpool : s.pool.Step t a pool)
      (hscan : Scans s.scan.shared t (s.scan.threads t) a g v) :
      Step s t { pool, scan := s.scan.goto t g v }
  | ends {g : Shared} {v : Local} (ht : t = none) (hjoin : ∀ u, s.pool.pc u = .returned)
      (h : Ends s.scan.shared (s.scan.threads t) g v) :
      Step s t { s with scan := s.scan.goto t g v }

inductive Reachable : System l → Prop where
  | start : Reachable (start l)
  | step {s s' : System l} {t : Thread l} (h : Reachable s) (hstep : Step s t s') : Reachable s'

end System

/-! ## Stages -/

/-- Where a thread is, as the queue and the scan both see it. -/
inductive Stage where
  | outside
  | inside
  | offering (task : DirectoryToken)

def Pc.stage : Pc DirectoryToken → Stage
  | .running | .pushSleepers | .pushLock | .pushUnlock | .pushNotify | .openSwap | .openLock
  | .openUnlock | .openNotify => .inside
  | .pushClosed task | .pushCapacity task | .pushPending task | .pushQueued task
  | .pushTask task => .offering task
  | _ => .outside

def Work.stage : Work → Stage
  | .idle | .joining | .lastFlush | .lastSend | .gone => .outside
  | .offered task _ _ _ => .offering task
  | _ => .inside

def Action.stage : Action DirectoryToken → Stage → Stage
  | .tau, stage => stage
  | .begin _, _ | .refuse _, _ | .publish _, _ => .inside
  | .offer task, _ => .offering task
  | .finish, _ => .outside

variable {a : Action DirectoryToken} {t : Thread l}

theorem Operation.stage (h : Operation q t p a q' p') : p'.stage = a.stage p.stage := by
  cases h with
  | releaseOne h | closeAgain h => cases t <;> rfl
  | _ => rfl

theorem Scans.stage
    (h : Scans g t v a g' v') : v'.work.stage = a.stage v.work.stage := by
  cases h with
  | reopenFailed token o w hw | scanFailed token complete o w hw
  | scanned token complete o w hw hroot => rcases hw with rfl | rfl <;> rfl
  | released after o h => cases after <;> rfl
  | finishDirectory token complete after o =>
    simp only [afterFinish]
    cases g.progress.parent token <;> rfl
  | finish o => cases t <;> rfl
  | _ => rfl

theorem Pool.Step.stage {s s' : Pool l DirectoryToken}
    (h : s.Step t a s') : (s'.pc t).stage = a.stage (s.pc t).stage ∧
      ∀ u, u ≠ t → (s'.pc u).stage = (s.pc u).stage := by
  have hwake : ∀ p : Pc DirectoryToken, (Pool.wake p).stage = p.stage := by
    intro p
    cases p <;> rfl
  have hwakeGate : ∀ p : Pc DirectoryToken, (Pool.wakeGate p).stage = p.stage := by
    intro p
    cases p <;> rfl
  cases h with
  | own h =>
    constructor
    · show (Function.update s.pc t _ t).stage = _
      rw [Function.update_self]
      exact h.stage
    · intro u hu
      show (Function.update s.pc t _ u).stage = _
      rw [Function.update_of_ne hu]
  | notifyOne h u hu =>
    refine ⟨by rw [Pool.goto_self, h]; rfl, fun other hother => ?_⟩
    rw [Pool.goto_of_ne _ _ hother]
    by_cases hself : other = u
    · rw [hself, Pool.goto_self, hu]
      rfl
    · rw [Pool.goto_of_ne _ _ hself]
  | notifyNone h hnone =>
    exact ⟨by rw [Pool.goto_self, h]; rfl, fun u hu => by rw [Pool.goto_of_ne _ _ hu]⟩
  | notifyWake h =>
    refine ⟨by rw [Pool.goto_self, h]; rfl, fun u hu => ?_⟩
    rw [Pool.goto_of_ne _ _ hu]
    exact hwake _
  | notifyGate h =>
    refine ⟨by rw [Pool.goto_self, h]; cases t <;> rfl, fun u hu => ?_⟩
    rw [Pool.goto_of_ne _ _ hu]
    exact hwakeGate _
  | openNotify h =>
    refine ⟨by rw [Pool.goto_self, h]; rfl, fun u hu => ?_⟩
    rw [Pool.goto_of_ne _ _ hu]
    exact hwakeGate _
  | spuriousWake h | spuriousGate h =>
    exact ⟨by rw [Pool.goto_self, h]; rfl, fun u hu => by rw [Pool.goto_of_ne _ _ hu]⟩

theorem Pool.Step.not_returned {s s' : Pool l DirectoryToken}
    (h : s.Step t a s') : s.pc t ≠ .returned := by
  intro hreturned
  cases h with
  | own h =>
    rw [hreturned] at h
    cases h
  | notifyOne h u hu => simp [hreturned] at h
  | notifyNone h hnone | notifyWake h | notifyGate h | openNotify h | spuriousWake h
  | spuriousGate h => simp [hreturned] at h

/-! ## Published tasks -/

/-- The task a thread has taken and not begun. -/
def taken : Pc DirectoryToken → Multiset DirectoryToken
  | .took task => {task}
  | _ => 0

theorem taken_took (task : DirectoryToken) : taken (.took task) = {task} := rfl

theorem taken_find : taken .find = 0 := rfl

theorem taken_running : taken .running = 0 := rfl

/-- The tasks in the deques, and those that were taken and not begun. -/
def Pool.waitingTasks (s : Pool l DirectoryToken) : Multiset DirectoryToken :=
  s.queue.tasks.map Prod.snd + total (fun _ => taken) s.pc

/-- How the tasks that wait change with an action. -/
def Action.Moves (a : Action DirectoryToken) (tasks tasks' : Multiset DirectoryToken) : Prop :=
  match a with
  | .begin task => tasks = task ::ₘ tasks'
  | .publish task => tasks' = task ::ₘ tasks
  | _ => tasks' = tasks

theorem Operation.moves {q q'}
    {p p'} (h : Operation q t p a q' p') :
    a.Moves (q.tasks.map Prod.snd + taken p) (q'.tasks.map Prod.snd + taken p') := by
  cases h with
  | findTask place task left moved h =>
    have hmoved : (moved.map fun found => (t, found.2)).map Prod.snd = moved.map Prod.snd := by
      rw [Multiset.map_map]
      rfl
    show _ = _
    rw [h, Multiset.map_cons, Multiset.map_add, Multiset.map_add, hmoved, taken_took, taken_find,
      Multiset.add_zero, Multiset.add_comm, Multiset.singleton_add]
  | took task =>
    show _ = task ::ₘ _
    rw [taken_took, taken_running, Multiset.add_zero, Multiset.add_comm, Multiset.singleton_add]
  | pushTask task => simp [Action.Moves, taken]
  | releaseOne h | closeAgain h => cases t <;> rfl
  | _ => rfl

theorem Action.Moves.add
    (h : a.Moves (tasks + mine) (tasks' + mine')) (hrest : rest' + mine = rest + mine') :
    a.Moves (tasks + rest) (tasks' + rest') := by
  have hleft : tasks + rest + (mine + mine') = tasks + mine + (rest + mine') := by ac_rfl
  have hright : tasks' + rest' + (mine + mine') = tasks' + mine' + (rest + mine') := by
    rw [← hrest]
    ac_rfl
  cases a with
  | begin task =>
    apply add_right_cancel (b := mine + mine')
    rw [Multiset.cons_add, hright, hleft, show tasks + mine = _ from h, Multiset.cons_add]
  | publish task =>
    apply add_right_cancel (b := mine + mine')
    rw [Multiset.cons_add, hright, hleft, show tasks' + mine' = _ from h, Multiset.cons_add]
  | tau | offer task | refuse task | finish =>
    apply add_right_cancel (b := mine + mine')
    rw [hright, hleft, show tasks' + mine' = _ from h]

theorem Pool.Step.moves {s s' : Pool l DirectoryToken}
    (h : s.Step t a s') : a.Moves s.waitingTasks s'.waitingTasks := by
  -- threads that take no task
  have hquiet : ∀ pc : Thread l → Pc DirectoryToken, (∀ u, taken (pc u) = taken (s.pc u)) →
      s.waitingTasks = Pool.waitingTasks { s with pc } := fun pc hpc =>
    congrArg (s.queue.tasks.map Prod.snd + ·) (total_congr hpc).symm
  have hgoto : ∀ (pc : Thread l → Pc DirectoryToken) (u : Thread l) (p : Pc DirectoryToken),
      taken p = taken (pc u) → ∀ v, taken (Function.update pc u p v) = taken (pc v) := by
    intro pc u p hsame v
    by_cases hv : v = u
    · rw [hv, Function.update_self, hsame]
    · rw [Function.update_of_ne hv]
  have hwake : ∀ u, taken (wake (s.pc u)) = taken (s.pc u) := by
    intro u
    cases s.pc u <;> rfl
  have hwakeGate : ∀ u, taken (wakeGate (s.pc u)) = taken (s.pc u) := by
    intro u
    cases s.pc u <;> rfl
  cases h with
  | own h => exact h.moves.add (total_update (fun _ => taken) s.pc t _)
  | notifyOne h u hu =>
    apply Eq.symm
    apply hquiet
    intro v
    have hwoken := hgoto s.pc u .parkWoken (by rw [hu]; rfl)
    have hmine : taken .running = taken (Function.update s.pc u .parkWoken t) := by
      rw [hwoken, h]
      rfl
    exact (hgoto _ t .running hmine v).trans (hwoken v)
  | notifyNone h hnone => exact (hquiet _ (hgoto s.pc t _ (by rw [h]; rfl))).symm
  | notifyWake h =>
    apply Eq.symm
    apply hquiet
    intro v
    have hmine : taken .notifyGate = taken (wake (s.pc t)) := by
      rw [h]
      rfl
    exact (hgoto (wake ∘ s.pc) t .notifyGate hmine v).trans (hwake v)
  | notifyGate h =>
    apply Eq.symm
    apply hquiet
    intro v
    have hmine : taken (home t) = taken (wakeGate (s.pc t)) := by
      rw [h]
      cases t <;> rfl
    exact (hgoto (wakeGate ∘ s.pc) t (home t) hmine v).trans (hwakeGate v)
  | openNotify h =>
    apply Eq.symm
    apply hquiet
    intro v
    have hmine : taken .running = taken (wakeGate (s.pc t)) := by
      rw [h]
      rfl
    exact (hgoto (wakeGate ∘ s.pc) t .running hmine v).trans (hwakeGate v)
  | spuriousWake h | spuriousGate h => exact (hquiet _ (hgoto s.pc t _ (by rw [h]; rfl))).symm

/-- The scan's tasks move with those of the queue. -/
theorem Scans.moves {g g' v v'}
    (h : Scans g t v a g' v') : a.Moves g.published g'.published := by
  cases h with
  | begin task left o h => exact h
  | _ => rfl

theorem Action.Moves.unique
    {tasks tasks' other} (h : a.Moves tasks tasks')
    (hother : a.Moves tasks other) : tasks' = other := by
  cases a with
  | begin task => exact (Multiset.cons_inj_right task).mp (h.symm.trans hother)
  | publish task | tau | offer task | refuse task | finish => exact h.trans hother.symm

end Ish.Scan
