import Ish.Scan.WorkQueueClosing

/-!
# Sleeping and waking

No worker sleeps on while there is a task: what is queued is seen by a worker
that is awake, or the root is about to wake one.
-/

namespace Ish.Scan

open Ish.Lib.Threads Function

variable {l : Limits} {Task : Type} {q q' : IndexedWorkQueue l Task} {t : Thread l}
  {p p' : Pc Task} {a : Action Task} {s s' : Pool l Task}

/-! ## Waking for a task -/

/-- A worker at `p` that looks for a task before it sleeps again. -/
def awake (extra_open : Prop) (t : Thread l) : Pc Task → Prop
  | .top | .gate => BaseWorker t ∨ extra_open
  | .gateLock | .gateOpen | .gateClosed | .gateWait | .gateWaiting | .gateWoken | .gateUnlock
  | .parkClosed | .parkWait | .parkWaiting | .returned => False
  | _ => True

/-- A worker that is awake. -/
def Pool.SomeAwake (s : Pool l Task) : Prop :=
  ∃ index, awake (s.queue.extra_workers_open = true) (some index) (s.pc (some index))

/-- Whether the root at `p` is about to notify a worker, if one is waiting. -/
def notifies (waiting : Prop) : Pc Task → Prop
  | .pushTask _ | .pushSleepers | .pushLock => True
  | .pushUnlock | .pushNotify => waiting
  | _ => False

/-- The root has queued a task and not notified anybody yet. -/
def Pool.RootNotifies (s : Pool l Task) : Prop :=
  notifies (∃ index, s.pc (some index) = .parkWaiting) (s.pc none)

/-- Somebody will see a task that is queued. -/
def Pool.Seen (s : Pool l Task) : Prop :=
  0 < s.queue.queued → s.SomeAwake ∨ s.RootNotifies

theorem awake_mono {extra extra' : Prop} (hextra : extra → extra') (h : awake extra t p) :
    awake extra' t p := by
  cases p <;> simp_all [awake]
  · exact h.imp_right hextra
  · exact h.imp_right hextra

theorem notifies_mono {waiting waiting' : Prop} (hwaiting : waiting → waiting')
    (h : notifies waiting p) : notifies waiting' p := by
  cases p <;> simp_all [notifies]

variable {index : Fin l.workerCount}

theorem Operation.stays_awake (h : Operation q (some index) p a q' p')
    (hfits : Fits q (some index) p) (hawake : awake (q.extra_workers_open = true) (some index) p) :
    awake (q'.extra_workers_open = true) (some index) p' ∨ q'.queued = 0 ∨
      (q'.queued = q.queued ∧ q.closed = true) := by
  obtain ⟨hbase, hextra, hleft⟩ := hfits
  by_cases hworker : BaseWorker (some index : Thread l)
  · cases h <;> simp_all [awake, home, Pc.isGate]
  · cases h <;> simp_all [awake, home, Pc.isInside]

theorem Operation.asleep (h : Operation q (some index) p a q' p')
    (hawake : ¬ awake (q.extra_workers_open = true) (some index) p) :
    q'.queued = q.queued ∧ p ≠ .parkWaiting := by
  cases h <;> simp_all [awake]

/-- The first of the base workers. -/
def firstWorker (l : Limits) : Fin l.workerCount := ⟨0, Nat.lt_of_lt_of_le Nat.one_pos (Nat.le_max_right _ _)⟩

theorem baseWorker_first (l : Limits) : BaseWorker (some (firstWorker l) : Thread l) := by
  show 0 < min (max l.base_workers 1) (max l.workers 1)
  exact Nat.lt_min.mpr ⟨Nat.lt_of_lt_of_le Nat.one_pos (Nat.le_max_right _ _),
    Nat.lt_of_lt_of_le Nat.one_pos (Nat.le_max_right _ _)⟩

theorem asleep_cases (hfits : Fits q (some index) p)
    (hworker : BaseWorker (some index : Thread l)) :
    awake (q.extra_workers_open = true) (some index) p ∨ p = .parkClosed ∨ p = .parkWait ∨
      p = .parkWaiting ∨ q.closed = true := by
  obtain ⟨hbase, -, hleft⟩ := hfits
  have hgate := hbase hworker
  cases p <;> simp_all [awake, Pc.isGate]

theorem queued_of_closed (hcounted : s.Counted) (hclosing : s.Closing)
    (hclosed : s.queue.closed = true) : s.queue.queued = 0 := by
  have hzero := hclosing.mpr (.inl hclosed)
  have hle := queued_le_pending hcounted
  omega

theorem Pool.SomeAwake.mono (h : s.SomeAwake)
    (hopen : s.queue.extra_workers_open = true → s'.queue.extra_workers_open = true)
    (hpc : ∀ index, awake (s.queue.extra_workers_open = true) (some index) (s.pc (some index)) →
      awake (s.queue.extra_workers_open = true) (some index) (s'.pc (some index))) :
    s'.SomeAwake := by
  obtain ⟨index, hawake⟩ := h
  exact ⟨index, awake_mono hopen (hpc index hawake)⟩

theorem Pool.Seen.worker (hs : s.Seen) (hplaced : s.Placed)
    (hcounted : s.Counted) (hclosing : s.Closing)
    (h : Operation s.queue (some index) (s.pc (some index)) a q' p') :
    Pool.Seen { queue := q', pc := Function.update s.pc (some index) p' } := by
  intro hpos
  have hself : Function.update s.pc (some index) p' (some index) = p' := update_self ..
  have hother : ∀ v, v ≠ some index → Function.update s.pc (some index) p' v = s.pc v :=
    fun v hv => update_of_ne hv _ _
  by_cases hawake : awake (s.queue.extra_workers_open = true) (some index) (s.pc (some index))
  · rcases h.stays_awake (hplaced _) hawake with hstill | hzero | ⟨hsame, hclosed⟩
    · refine .inl ⟨index, ?_⟩
      show awake _ _ (Function.update s.pc (some index) p' (some index))
      rwa [hself]
    · exact absurd hpos (by simp [hzero])
    · have hzero := queued_of_closed hcounted hclosing hclosed
      exact absurd hpos (by simp [hsame, hzero])
  · obtain ⟨hsame, hne⟩ := h.asleep hawake
    have hbefore : 0 < s.queue.queued := hsame ▸ hpos
    rcases hs hbefore with ⟨other, hother'⟩ | hroot
    · have hdiffers : some other ≠ some index := fun heq => hawake (heq ▸ hother')
      refine .inl ⟨other, awake_mono h.open_mono ?_⟩
      show awake _ _ (Function.update s.pc (some index) p' (some other))
      rwa [hother _ hdiffers]
    · refine .inr ?_
      have hkept : notifies (∃ index, s.pc (some index) = .parkWaiting)
          (Function.update s.pc (some index) p' none) := by
        rw [hother none nofun]
        exact hroot
      apply notifies_mono _ hkept
      rintro ⟨other, hwaits⟩
      have hdiffers : some other ≠ some index := fun heq => hne (heq ▸ hwaits)
      exact ⟨other, (hother _ hdiffers).trans hwaits⟩

theorem Pool.Seen.root (hs : s.Seen) (hplaced : s.Placed) (hcounted : s.Counted)
    (hclosing : s.Closing) (h : Operation s.queue none (s.pc none) a q' p') :
    Pool.Seen { queue := q', pc := Function.update s.pc none p' } := by
  intro hpos
  have hself : Function.update s.pc none p' none = p' := update_self ..
  have hother : ∀ index, Function.update s.pc none p' (some index) = s.pc (some index) :=
    fun index => update_of_ne (Option.some_ne_none index) _ _
  by_cases hawake : s.SomeAwake
  · refine .inl (hawake.mono h.open_mono fun index hindex => ?_)
    show awake _ _ (Function.update s.pc none p' (some index))
    rwa [hother]
  refine .inr ?_
  show notifies (∃ index, Function.update s.pc none p' (some index) = .parkWaiting)
    (Function.update s.pc none p' none)
  rw [hself]
  simp only [hother]
  have hbefore : 0 < s.queue.queued → s.RootNotifies := fun hqueued =>
    (hs hqueued).resolve_left hawake
  -- the first base worker is not awake
  have hfirst : s.queue.queued = 0 ∨ s.pc (some (firstWorker l)) = .parkClosed ∨
      s.pc (some (firstWorker l)) = .parkWait ∨ s.pc (some (firstWorker l)) = .parkWaiting := by
    rcases asleep_cases (hplaced _) (baseWorker_first l) with hworker | hpc | hpc | hpc | hclosed
    · exact absurd ⟨_, hworker⟩ hawake
    · exact .inr (.inl hpc)
    · exact .inr (.inr (.inl hpc))
    · exact .inr (.inr (.inr hpc))
    · exact .inl (queued_of_closed hcounted hclosing hclosed)
  have hsleeper := le_total (fun _ => sleeperShare) s.pc (some (firstWorker l))
  have hpark := le_total (fun _ => parkShare) s.pc (some (firstWorker l))
  have hsleepers := hcounted.sleepers
  have hheld := hcounted.park
  rw [shares] at hsleepers hheld
  rw [Pool.RootNotifies] at hbefore
  generalize s.pc none = p at h hbefore
  cases h with
  | pushQueued task => trivial
  | pushTask task => trivial
  | pushAsleep h => trivial
  | pushAwake hzero =>
    -- nobody sleeps
    rcases hfirst with hnone | hpc | hpc | hpc
    · exact absurd hpos (by simp [hnone])
    all_goals
      rw [hpc] at hsleeper
      simp only [sleeperShare] at hsleeper
      omega
  | pushLock hfree =>
    -- nobody is between its look at the queue and its sleep
    rw [hfree, Bool.toNat_false] at hheld
    rcases hfirst with hnone | hpc | hpc | hpc
    · exact absurd hpos (by simp [hnone])
    · rw [hpc] at hpark
      simp only [parkShare] at hpark
      omega
    · rw [hpc] at hpark
      simp only [parkShare] at hpark
      omega
    · exact ⟨_, hpc⟩
  | pushUnlock => exact hbefore hpos
  | took task => exact (hbefore (Nat.lt_of_lt_of_le hpos (Nat.sub_le _ _))).elim
  | _ => exact (hbefore hpos).elim

/-- A thread that is woken, or goes on, without an operation on the queue. -/
theorem Pool.Seen.goto (hs : s.Seen) (hne : s.pc t ≠ .parkWaiting)
    (hworker : ∀ index, t = some index → awake (s.queue.extra_workers_open = true) t (s.pc t) →
      awake (s.queue.extra_workers_open = true) t p)
    (hroot : t = none → s.RootNotifies → s.SomeAwake) : (s.goto t p).Seen := by
  intro hpos
  have hother : ∀ v, v ≠ t → (s.goto t p).pc v = s.pc v := fun v hv => update_of_ne hv _ _
  have hself : (s.goto t p).pc t = p := update_self ..
  have hawake : s.SomeAwake → (s.goto t p).SomeAwake := by
    intro hsome
    refine hsome.mono (show _ → (s.goto t p).queue.extra_workers_open = true from id) ?_
    intro index hindex
    by_cases hit : some index = t
    · subst hit
      rw [hself]
      exact hworker index rfl hindex
    · rwa [hother _ hit]
  rcases hs hpos with hsome | hnotifies
  · exact .inl (hawake hsome)
  · cases t with
    | none => exact .inl (hawake (hroot rfl hnotifies))
    | some index =>
      refine .inr ?_
      rw [Pool.RootNotifies, hother none (Option.some_ne_none index).symm]
      apply notifies_mono _ hnotifies
      rintro ⟨other, hwaits⟩
      have hdiffers : some other ≠ some index := fun heq => hne (heq ▸ hwaits)
      exact ⟨other, (hother _ hdiffers).trans hwaits⟩

theorem Pool.Seen.of_awake (index : Fin l.workerCount)
    (h : awake (s.queue.extra_workers_open = true) (some index) (s.pc (some index))) : s.Seen :=
  fun _ => .inl ⟨index, h⟩

theorem awake_wake {extra : Prop} (h : awake extra t p) : awake extra t (Pool.wake p) := by
  cases p <;> simp_all [awake, Pool.wake]

theorem awake_wakeGate {extra : Prop} (h : awake extra t p) : awake extra t (Pool.wakeGate p) := by
  cases p <;> simp_all [awake, Pool.wakeGate]

theorem Pool.Seen.step (hs : s.Seen) (hplaced : s.Placed) (hcounted : s.Counted)
    (hclosing : s.Closing) (h : Pool.Step s t a s') : s'.Seen := by
  cases h with
  | own h =>
    cases t with
    | none => exact hs.root hplaced hcounted hclosing h
    | some index => exact hs.worker hplaced hcounted hclosing h
  | notifyOne h u hu =>
    cases u with
    | none => exact absurd (hplaced none) (by simp [Fits, hu, Pc.isTask])
    | some index =>
      apply Pool.Seen.of_awake index
      have hne : some index ≠ t := by
        rintro rfl
        rw [h] at hu
        cases hu
      have hpc : ((s.goto (some index) .parkWoken).goto t .running).pc (some index) =
          .parkWoken :=
        (update_of_ne hne _ _).trans (update_self ..)
      rw [hpc]
      trivial
  | notifyNone h hnone =>
    apply hs.goto (by rw [h]; rintro ⟨⟩)
    · intro index _ _
      trivial
    · rintro rfl hroot
      rw [Pool.RootNotifies, h] at hroot
      obtain ⟨index, hwaits⟩ := hroot
      exact absurd hwaits (hnone _)
  | notifyWake h =>
    cases t with
    | some index =>
      apply Pool.Seen.of_awake index
      rw [Pool.goto_self]
      trivial
    | none =>
      intro hpos
      refine .inl ?_
      rcases hs hpos with hawake | hroot
      · exact hawake.mono id fun index hindex => awake_wake hindex
      · rw [Pool.RootNotifies, h] at hroot
        exact hroot.elim
  | notifyGate h =>
    cases t with
    | some index =>
      apply Pool.Seen.of_awake index
      rw [Pool.goto_self]
      show BaseWorker (some index) ∨ s.queue.extra_workers_open = true
      by_cases hworker : BaseWorker (some index : Thread l)
      · exact .inl hworker
      · obtain ⟨-, hextra, -⟩ := hplaced (some index)
        exact .inr (hextra hworker (by rw [h]; rfl))
    | none =>
      intro hpos
      refine .inl ?_
      rcases hs hpos with hawake | hroot
      · exact hawake.mono id fun index hindex => awake_wakeGate hindex
      · rw [Pool.RootNotifies, h] at hroot
        exact hroot.elim
  | openNotify h =>
    cases t with
    | some index =>
      apply Pool.Seen.of_awake index
      rw [Pool.goto_self]
      trivial
    | none =>
      intro hpos
      refine .inl ?_
      rcases hs hpos with hawake | hroot
      · exact hawake.mono id fun index hindex => awake_wakeGate hindex
      · rw [Pool.RootNotifies, h] at hroot
        exact hroot.elim
  | spuriousWake h =>
    cases t with
    | none => exact absurd (hplaced none) (by simp [Fits, h, Pc.isTask])
    | some index =>
      apply Pool.Seen.of_awake index
      rw [Pool.goto_self]
      trivial
  | spuriousGate h =>
    apply hs.goto (by rw [h]; rintro ⟨⟩)
    · intro index _ hawake
      rw [h] at hawake
      exact hawake.elim
    · rintro rfl hroot
      rw [Pool.RootNotifies, h] at hroot
      exact hroot.elim

theorem Pool.Seen.start : (Pool.start l Task).Seen := nofun

/-! ## Every reachable pool -/

/-- **The invariant of the work queue.** -/
structure Pool.Sound (s : Pool l Task) : Prop where
  counted : s.Counted
  placed : s.Placed
  closing : s.Closing
  told : s.Told
  seen : s.Seen

theorem Pool.Sound.step (hs : s.Sound) (h : Pool.Step s t a s') : s'.Sound where
  counted := hs.counted.step h
  placed := hs.placed.step h
  closing := hs.closing.step hs.counted h
  told := hs.told.step hs.counted h
  seen := hs.seen.step hs.placed hs.counted hs.closing h

theorem Pool.Sound.start (l : Limits) (Task : Type) : (Pool.start l Task).Sound where
  counted := .start l Task
  placed := .start
  closing := .start
  told := .start
  seen := .start

end Ish.Scan
