import Ish.Scan.WorkQueueWaking

/-!
# The end of the work queue

A pool in which every thread waits or has returned is done: the queue is closed
and empty and no thread waits. In a closed queue every step brings a thread
nearer to its return.
-/

namespace Ish.Scan

open Ish.Lib.Threads

variable {l : Limits} {Task : Type} {q q' : IndexedWorkQueue l Task} {t : Thread l}
  {p p' : Pc Task} {a : Action Task} {s s' : Pool l Task}

/-- A thread that waits to be notified. -/
def Pc.isWaiting : Pc Task → Bool
  | .parkWaiting | .gateWaiting => true
  | _ => false

/-- Every thread waits or has returned. -/
def Pool.Resting (s : Pool l Task) : Prop :=
  ∀ t, (s.pc t).isWaiting = true ∨ s.pc t = .returned

theorem resting_queued (hs : s.Sound) (h : s.Resting) : s.queue.queued = 0 := by
  by_contra hne
  rcases hs.seen (Nat.pos_of_ne_zero hne) with ⟨index, hawake⟩ | hroot
  · have hrests := h (some index)
    generalize s.pc (some index) = p at hawake hrests
    cases p <;> simp_all [awake, Pc.isWaiting]
  · have hrests := h none
    rw [Pool.RootNotifies] at hroot
    generalize s.pc none = p at hroot hrests
    cases p <;> simp_all [notifies, Pc.isWaiting]

theorem resting_share (h : (p : Pc Task).isWaiting = true ∨ p = .returned) :
    offeredShare p + runningShare p = 0 := by
  cases p <;> simp_all [Pc.isWaiting, offeredShare, runningShare]

theorem closer_of_tells {w c : Pc Task} (hw : w.isWaiting = true) (h : tells w c = true) :
    ¬ (c.isWaiting = true ∨ c = .returned) := by
  cases w with
  | parkWaiting | gateWaiting => cases c <;> simp_all [tells, Pc.isWaiting]
  | _ => cases hw

/-- **Where all threads rest**, the queue is empty and closed and all have
returned. -/
theorem Pool.Sound.resting (hs : s.Sound) (h : s.Resting) :
    s.queue.tasks = 0 ∧ s.queue.pending = 0 ∧ s.queue.closed = true ∧ ∀ t, s.pc t = .returned := by
  have hqueued := resting_queued hs h
  have htasks : s.queue.tasks.card = 0 := by
    have hcount := hs.counted.queued
    omega
  have hpending : s.queue.pending = 0 := by
    have hshares : shares (fun p => offeredShare p + runningShare p) s.pc = 0 :=
      total_zero fun t => resting_share (h t)
    rw [hs.counted.pending, htasks, hshares]
  have hclosed : s.queue.closed = true := by
    rcases hs.closing.mp hpending with hclosed | ⟨t, ht⟩
    · exact hclosed
    · have hrests := h t
      simp [ht, Pc.isWaiting] at hrests
  refine ⟨Multiset.card_eq_zero.mp htasks, hpending, hclosed, fun t => ?_⟩
  rcases h t with hwaits | hreturned
  · -- nobody is left to notify it
    obtain ⟨c, htells⟩ := hs.told hclosed t
    exact absurd (h c) (closer_of_tells hwaits htells)
  · exact hreturned

/-! ## Closed queues -/

/-- The steps a thread takes at most in a closed queue. -/
def distance : Pc Task → Nat
  | .top => 1
  | .gateUnlock | .parkUnlock | .notifyGate => 2
  | .gateWoken | .unpark | .notifyWake => 3
  | .gateWaiting | .parkWoken | .closeUnlock => 4
  | .gateWait | .parkWaiting | .closeLock => 5
  | .gateClosed | .parkWait | .closeSwap => 6
  | .gateOpen | .parkClosed => 7
  | .gateLock | .parkQueued => 8
  | .parkCount => 9
  | .parkLock => 10
  | .find => 11
  | .gate => 12
  | _ => 0

theorem Operation.distance_lt (h : Operation q t p a q' p') (hclosed : q.closed = true)
    (htasks : q.tasks = 0) (hqueued : q.queued = 0) (hidle : runningShare p = 0) :
    distance p' < distance p := by
  cases h with
  | findTask place task left moved h =>
    rw [htasks] at h
    exact absurd h.symm (Multiset.cons_ne_zero)
  | releaseOne h => simp [runningShare] at hidle
  | closeAgain h => cases t <;> simp [home, distance]
  | _ => simp_all [distance, runningShare]

theorem distance_wake (p : Pc Task) : distance (Pool.wake p) ≤ distance p := by
  cases p <;> simp [distance, Pool.wake]

theorem distance_wakeGate (p : Pc Task) : distance (Pool.wakeGate p) ≤ distance p := by
  cases p <;> simp [distance, Pool.wakeGate]

/-- The steps all threads take at most in a closed queue. -/
def Pool.toGo (s : Pool l Task) : Nat := total (fun _ => distance) s.pc

theorem Pool.Sound.idle (hs : s.Sound) (hclosed : s.queue.closed = true) (t : Thread l) :
    offeredShare (s.pc t) + runningShare (s.pc t) = 0 ∧ s.queue.tasks = 0 ∧ s.queue.queued = 0 := by
  have hzero := hs.closing.mpr (.inl hclosed)
  have hcount := hs.counted.pending
  have hle := le_total (fun _ p => offeredShare p + runningShare p) s.pc t
  rw [shares] at hcount
  refine ⟨by omega, Multiset.card_eq_zero.mp (by omega), ?_⟩
  exact queued_of_closed hs.counted hs.closing hclosed

/-- **A closed queue is left**: each step brings its threads nearer to their
return. -/
theorem Pool.Sound.toGo_lt (hs : s.Sound) (hclosed : s.queue.closed = true)
    (h : Pool.Step s t a s') : s'.toGo < s.toGo := by
  obtain ⟨hidle, htasks, hqueued⟩ := hs.idle hclosed t
  have hrunning : runningShare (s.pc t) = 0 := by omega
  cases h with
  | own h => exact total_update_lt (h.distance_lt hclosed htasks hqueued hrunning)
  | notifyOne h u hu | notifyNone h hnone | openNotify h => simp [h, runningShare] at hrunning
  | notifyWake h =>
    have hwoken : total (fun _ => distance) (wake ∘ s.pc) ≤ s.toGo :=
      total_mono fun u => distance_wake _
    refine Nat.lt_of_lt_of_le (total_update_lt ?_) hwoken
    show distance .notifyGate < distance (wake (s.pc t))
    rw [h]
    exact Nat.lt_succ_self _
  | notifyGate h =>
    have hwoken : total (fun _ => distance) (wakeGate ∘ s.pc) ≤ s.toGo :=
      total_mono fun u => distance_wakeGate _
    refine Nat.lt_of_lt_of_le (total_update_lt ?_) hwoken
    show distance (home t) < distance (wakeGate (s.pc t))
    rw [h]
    cases t
    · exact Nat.succ_pos _
    · exact Nat.lt_succ_self _
  | spuriousWake h =>
    apply total_update_lt
    rw [h]
    exact Nat.lt_succ_self _
  | spuriousGate h =>
    apply total_update_lt
    rw [h]
    exact Nat.lt_succ_self _

/-! ## Progress -/

theorem exists_operation (q : IndexedWorkQueue l Task) (t : Thread l)
    (hfree : parkShare p = 0 → q.park = false) (hidle : runningShare p = 0)
    (hwaits : p.isWaiting = false) (hreturned : p ≠ .returned) (hwake : p ≠ .notifyWake)
    (hgate : p ≠ .notifyGate) : ∃ a q' p', Operation q t p a q' p' := by
  have hclosed := Bool.eq_false_or_eq_true q.closed
  have hopen := Bool.eq_false_or_eq_true q.extra_workers_open
  cases p with
  | top =>
    rcases hclosed with hclosed | hclosed
    · exact ⟨_, _, _, .topClosed hclosed⟩
    · by_cases hworker : BaseWorker t
      · exact ⟨_, _, _, .topBase hclosed hworker⟩
      · exact ⟨_, _, _, .topExtra hclosed hworker⟩
  | gate =>
    rcases hopen with hopen | hopen
    · exact ⟨_, _, _, .gateIn hopen⟩
    · exact ⟨_, _, _, .gateShut hopen⟩
  | gateLock => exact ⟨_, _, _, .gateLock (hfree rfl)⟩
  | gateOpen =>
    rcases hopen with hopen | hopen
    · exact ⟨_, _, _, .gateOpened hopen⟩
    · exact ⟨_, _, _, .gateStillShut hopen⟩
  | gateClosed =>
    rcases hclosed with hclosed | hclosed
    · exact ⟨_, _, _, .gateClosed hclosed⟩
    · exact ⟨_, _, _, .gateNotClosed hclosed⟩
  | gateWait => exact ⟨_, _, _, .gateWait⟩
  | gateWoken => exact ⟨_, _, _, .gateWoken (hfree rfl)⟩
  | gateUnlock => exact ⟨_, _, _, .gateUnlock⟩
  | find => exact ⟨_, _, _, .findNone⟩
  | parkLock => exact ⟨_, _, _, .parkLock (hfree rfl)⟩
  | parkCount => exact ⟨_, _, _, .parkCount⟩
  | parkQueued =>
    rcases Nat.eq_zero_or_pos q.queued with hnone | hsome
    · exact ⟨_, _, _, .parkNoWork hnone⟩
    · exact ⟨_, _, _, .parkWork hsome⟩
  | parkClosed =>
    rcases hclosed with hclosed | hclosed
    · exact ⟨_, _, _, .parkClosed hclosed⟩
    · exact ⟨_, _, _, .parkNotClosed hclosed⟩
  | parkWait => exact ⟨_, _, _, .parkWait⟩
  | parkWoken => exact ⟨_, _, _, .parkWoken (hfree rfl)⟩
  | unpark => exact ⟨_, _, _, .unpark⟩
  | parkUnlock => exact ⟨_, _, _, .parkUnlock⟩
  | closeSwap =>
    rcases hclosed with hclosed | hclosed
    · exact ⟨_, _, _, .closeAgain hclosed⟩
    · exact ⟨_, _, _, .closeFirst hclosed⟩
  | closeLock => exact ⟨_, _, _, .closeLock (hfree rfl)⟩
  | closeUnlock => exact ⟨_, _, _, .closeUnlock⟩
  | gateWaiting | parkWaiting => cases hwaits
  | returned => exact absurd rfl hreturned
  | notifyWake => exact absurd rfl hwake
  | notifyGate => exact absurd rfl hgate
  | _ => cases hidle

/-- What a thread does in a closed queue means nothing to the scan. -/
theorem Operation.tau_of_idle (h : Operation q t p a q' p') (hidle : runningShare p = 0) :
    a = .tau := by
  cases h <;> simp_all [runningShare]

/-- **A closed queue is left by everybody**: while a thread has not returned, one
goes on without being woken for nothing. -/
theorem Pool.Sound.goes_on (hs : s.Sound) (hclosed : s.queue.closed = true)
    (h : ∃ t, s.pc t ≠ .returned) : ∃ t s', (s.pc t).isWaiting = false ∧ Pool.Step s t .tau s' := by
  -- the holder of the mutex, or else any thread that does not wait
  obtain ⟨t, hwaits, hreturned, hfree⟩ : ∃ t, (s.pc t).isWaiting = false ∧ s.pc t ≠ .returned ∧
      (parkShare (s.pc t) = 0 → s.queue.park = false) := by
    cases hpark : s.queue.park with
    | true =>
      have hcount := hs.counted.park
      rw [hpark] at hcount
      obtain ⟨t, ht⟩ := exists_of_total (show 0 < shares parkShare s.pc by rw [hcount]; decide)
      generalize hp : s.pc t = p at ht
      refine ⟨t, ?_, ?_, fun hnone => absurd ht (by rw [← hp, hnone]; exact Nat.lt_irrefl 0)⟩
      · rw [hp]
        cases p <;> simp_all [parkShare, Pc.isWaiting]
      · rw [hp]
        rintro rfl
        exact Nat.lt_irrefl 0 ht
    | false =>
      by_contra hnone
      have hrests : s.Resting := by
        intro t
        by_contra hmoves
        rw [not_or] at hmoves
        exact hnone ⟨t, by simpa using hmoves.1, hmoves.2, fun _ => rfl⟩
      obtain ⟨t, ht⟩ := h
      exact ht ((hs.resting hrests).2.2.2 t)
  obtain ⟨hidle, -, -⟩ := hs.idle hclosed t
  have hrunning : runningShare (s.pc t) = 0 := by omega
  by_cases hwake : s.pc t = .notifyWake
  · exact ⟨t, _, hwaits, .notifyWake hwake⟩
  by_cases hgate : s.pc t = .notifyGate
  · exact ⟨t, _, hwaits, .notifyGate hgate⟩
  obtain ⟨a, q', p', hop⟩ := exists_operation s.queue t hfree hrunning hwaits hreturned hwake hgate
  have htau := hop.tau_of_idle hrunning
  subst htau
  exact ⟨t, _, hwaits, .own hop⟩

end Ish.Scan
