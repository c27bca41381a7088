import Ish.Scan.WorkQueueCounts

/-!
# Closing the work queue

Where each thread can be; that the queue is closed when nothing is pending any
more; and that a worker that waits when it is closed is yet to be notified.
-/

namespace Ish.Scan

open Ish.Lib.Threads Function

variable {l : Limits} {Task : Type} {q q' : IndexedWorkQueue l Task} {t : Thread l}
  {p p' : Pc Task} {a : Action Task} {s s' : Pool l Task}

/-! ## Where a thread can be -/

/-- Outside of `next_task`. -/
def Pc.isTask : Pc Task → Bool
  | .running | .pushClosed _ | .pushCapacity _ | .pushPending _ | .pushQueued _ | .pushTask _
  | .pushSleepers | .pushLock | .pushUnlock | .pushNotify | .openSwap | .openLock | .openUnlock
  | .openNotify | .release | .closeSwap | .closeLock | .closeUnlock | .notifyWake | .notifyGate =>
    true
  | _ => false

/-- At the gate of the extra workers. -/
def Pc.isGate : Pc Task → Bool
  | .gate | .gateLock | .gateOpen | .gateClosed | .gateWait | .gateWaiting | .gateWoken
  | .gateUnlock => true
  | _ => false

/-- Past the gate. -/
def Pc.isInside : Pc Task → Bool
  | .top | .gate | .gateLock | .gateOpen | .gateClosed | .gateWait | .gateWaiting | .gateWoken
  | .gateUnlock | .returned => false
  | _ => true

/-- Where `t` can be: the root asks for no tasks, a base worker skips the gate,
an extra worker passes it when it is open, a worker leaves a closed queue. -/
def Fits (q : IndexedWorkQueue l Task) : Thread l → Pc Task → Prop
  | none, p => p.isTask = true ∨ p = .returned
  | some index, p => (BaseWorker (some index : Thread l) → p.isGate = false) ∧
      (¬ BaseWorker (some index : Thread l) → p.isInside = true → q.extra_workers_open = true) ∧
      (p = .returned → q.closed = true)

theorem Operation.open_mono (h : Operation q t p a q' p') (hopen : q.extra_workers_open = true) :
    q'.extra_workers_open = true := by
  cases h <;> simp_all

theorem Operation.closed_mono (h : Operation q t p a q' p') (hclosed : q.closed = true) :
    q'.closed = true := by
  cases h <;> simp_all

theorem Fits.mono (hopen : q.extra_workers_open = true → q'.extra_workers_open = true)
    (hclosed : q.closed = true → q'.closed = true) (h : Fits q t p) : Fits q' t p := by
  cases t with
  | none => exact h
  | some index =>
    obtain ⟨hbase, hextra, hleft⟩ := h
    exact ⟨hbase, fun hno hinside => hopen (hextra hno hinside), fun hp => hclosed (hleft hp)⟩

theorem Operation.fits (h : Operation q t p a q' p') (hfits : Fits q t p) : Fits q' t p' := by
  have hopen := h.open_mono
  have hclosed := h.closed_mono
  cases t with
  | none =>
    cases h <;> simp_all [Fits, Pc.isTask, home]
  | some index =>
    cases h <;> simp_all [Fits, Pc.isGate, Pc.isInside, home]

/-- Each thread is where it can be. -/
def Pool.Placed (s : Pool l Task) : Prop := ∀ t, Fits s.queue t (s.pc t)

theorem Pool.Placed.of_pc {pc} (hs : s.Placed)
    (h : ∀ u, Fits s.queue u (s.pc u) → Fits s.queue u (pc u)) : Pool.Placed { s with pc } :=
  fun u => h u (hs u)

theorem Pool.Placed.goto (hs : s.Placed) (h : Fits s.queue t (s.pc t) → Fits s.queue t p) :
    (s.goto t p).Placed := by
  apply hs.of_pc
  intro u hu
  by_cases hut : u = t
  · subst hut
    rw [update_self]
    exact h hu
  · rwa [update_of_ne hut]

theorem fits_wake (h : Fits q t p) : Fits q t (Pool.wake p) := by
  cases t <;> cases p <;> simp_all [Fits, Pool.wake, Pc.isTask, Pc.isGate, Pc.isInside]

theorem fits_wakeGate (h : Fits q t p) : Fits q t (Pool.wakeGate p) := by
  cases t <;> cases p <;> simp_all [Fits, Pool.wakeGate, Pc.isTask, Pc.isGate, Pc.isInside]

theorem Pool.Placed.step (hs : s.Placed) (h : Pool.Step s t a s') : s'.Placed := by
  cases h with
  | own h =>
    intro u
    by_cases hut : u = t
    · subst hut
      show Fits _ u (Function.update s.pc u _ u)
      rw [update_self]
      exact h.fits (hs u)
    · show Fits _ u (Function.update s.pc t _ u)
      rw [update_of_ne hut]
      exact (hs u).mono h.open_mono h.closed_mono
  | notifyOne h u hu =>
    have hwoken : (s.goto u .parkWoken).Placed := by
      apply hs.goto
      intro hfits
      rw [hu] at hfits
      exact fits_wake hfits
    apply hwoken.goto
    have hne : t ≠ u := by
      rintro rfl
      rw [h] at hu
      cases hu
    have hpc : (s.goto u .parkWoken).pc t = .pushNotify :=
      (update_of_ne hne _ _).trans h
    rw [hpc]
    cases t <;> simp [Fits, Pc.isTask, Pc.isGate, Pc.isInside]
  | notifyNone h hnone =>
    apply hs.goto
    rw [h]
    cases t <;> simp [Fits, Pc.isTask, Pc.isGate, Pc.isInside]
  | notifyWake h =>
    apply (hs.of_pc fun u => fits_wake).goto
    simp only [h]
    cases t <;> simp [Fits, Pc.isTask, Pc.isGate, Pc.isInside, wake]
  | notifyGate h =>
    apply (hs.of_pc fun u => fits_wakeGate).goto
    simp only [h]
    cases t <;> simp [Fits, Pc.isTask, Pc.isGate, Pc.isInside, wakeGate, home]
  | openNotify h =>
    apply (hs.of_pc fun u => fits_wakeGate).goto
    simp only [h]
    cases t <;> simp [Fits, Pc.isTask, Pc.isGate, Pc.isInside, wakeGate]
  | spuriousWake h =>
    apply hs.goto
    rw [h]
    exact fits_wake
  | spuriousGate h =>
    apply hs.goto
    rw [h]
    exact fits_wakeGate

theorem Pool.Placed.start : (Pool.start l Task).Placed := by
  intro t
  cases t <;> simp [Pool.start, Fits, Pc.isTask, Pc.isGate, Pc.isInside]

/-! ## Closing -/

/-- The queue is closed, or about to be, when nothing is pending any more. -/
def Pool.Closing (s : Pool l Task) : Prop :=
  s.queue.pending = 0 ↔ s.queue.closed = true ∨ ∃ t, s.pc t = .closeSwap

theorem queued_le_pending (hs : s.Counted) : s.queue.queued ≤ s.queue.pending := by
  rw [hs.queued, hs.pending]
  apply Nat.add_le_add_left
  apply Finset.sum_le_sum
  intro u hu
  cases s.pc u <;> simp [pushedShare, takenShare, offeredShare, runningShare]

theorem one_le_pending (hs : s.Counted) (h : 0 < runningShare (s.pc t)) : 0 < s.queue.pending := by
  have hle := le_total (fun _ p => offeredShare p + runningShare p) s.pc t
  have hcount := hs.pending
  rw [shares] at hcount
  omega

/-- What an operation does to `pending` and `closed`. -/
theorem Operation.closing (h : Operation q t p a q' p') (hpending : 0 < runningShare p → 0 < q.pending) :
    (q'.pending = 0 ∧ p' = .closeSwap) ∨ (q'.closed = true ∧ q'.pending = q.pending ∧ p = .closeSwap) ∨
      (0 < q.pending ∧ 0 < q'.pending ∧ q'.closed = q.closed ∧ p' ≠ .closeSwap) ∨
      (q'.pending = q.pending ∧ q'.closed = q.closed ∧ p ≠ .closeSwap ∧ p' ≠ .closeSwap) := by
  cases h with
  | releaseOne h =>
    have hpos := hpending Nat.one_pos
    refine .inr (.inr (.inl ⟨hpos, ?_, rfl, ?_⟩))
    · show 0 < q.pending - 1
      omega
    · cases t <;> simp [home]
  | releaseLast h => exact .inl ⟨rfl, rfl⟩
  | closeAgain h => exact .inr (.inl ⟨h, rfl, rfl⟩)
  | closeFirst h => exact .inr (.inl ⟨rfl, rfl, rfl⟩)
  | pushPending task =>
    exact .inr (.inr (.inl ⟨hpending Nat.one_pos, Nat.succ_pos _, rfl, by rintro ⟨⟩⟩))
  | _ => exact .inr (.inr (.inr ⟨rfl, rfl, by rintro ⟨⟩, by rintro ⟨⟩⟩))

/-- No step but an operation puts a thread at `closeSwap` or takes it from there. -/
theorem closeSwap_iff {pc u} (hne : p ≠ .closeSwap)
    (h : ∀ v, pc v = .closeSwap ↔ s.pc v = .closeSwap) (hu : s.pc u ≠ .closeSwap) (v : Thread l) :
    Function.update pc u p v = .closeSwap ↔ s.pc v = .closeSwap := by
  by_cases hvu : v = u
  · subst hvu
    rw [update_self]
    exact ⟨fun heq => absurd heq hne, fun heq => absurd heq hu⟩
  · rw [update_of_ne hvu]
    exact h v

theorem wake_closeSwap : Pool.wake p = .closeSwap ↔ p = .closeSwap := by
  cases p <;> simp [Pool.wake]

theorem wakeGate_closeSwap : Pool.wakeGate p = .closeSwap ↔ p = .closeSwap := by
  cases p <;> simp [Pool.wakeGate]

theorem home_ne_closeSwap : (home t : Pc Task) ≠ .closeSwap := by
  cases t <;> exact nofun

theorem Pool.Closing.of_iff (hs : s.Closing) (hqueue : s'.queue = s.queue)
    (h : ∀ u, s'.pc u = .closeSwap ↔ s.pc u = .closeSwap) : s'.Closing := by
  rw [Pool.Closing, hqueue]
  exact Iff.trans hs (or_congr_right (exists_congr fun u => (h u).symm))

theorem Pool.Closing.step (hs : s.Closing) (hcounted : s.Counted) (h : Pool.Step s t a s') :
    s'.Closing := by
  have hne : ∀ {p' : Pc Task}, s.pc t = p' → p' ≠ .closeSwap → s.pc t ≠ .closeSwap := by
    rintro p' rfl hp'
    exact hp'
  cases h with
  | @own _ q' p' h =>
    have hpos := fun hshare => one_le_pending (t := t) hcounted hshare
    have hself : Function.update s.pc t p' t = p' := update_self ..
    rcases h.closing hpos with ⟨hzero, hp⟩ | ⟨hclosed, hsame, hp⟩ | ⟨hbefore, hafter, hclosed, hp⟩ |
      ⟨hsame, hclosed, hp, hp'⟩
    · exact ⟨fun _ => .inr ⟨t, hself.trans hp⟩, fun _ => hzero⟩
    · exact ⟨fun _ => .inl hclosed, fun _ => hsame.trans (hs.mpr (.inr ⟨t, hp⟩))⟩
    · -- nothing is closed while something is pending
      have hnone : ¬ (s.queue.closed = true ∨ ∃ u, s.pc u = .closeSwap) := fun hdone =>
        absurd (hs.mpr hdone) (Nat.ne_of_gt hbefore)
      refine ⟨fun hzero => absurd hzero (Nat.ne_of_gt hafter), ?_⟩
      rintro (hdone | ⟨u, hu⟩)
      · exact absurd (.inl (hclosed.symm.trans hdone)) hnone
      · by_cases hut : u = t
        · subst hut
          exact absurd (hself.symm.trans hu) hp
        · exact absurd (.inr ⟨u, (update_of_ne hut _ _).symm.trans hu⟩) hnone
    · have hpc := closeSwap_iff (s := s) hp' (fun _ => Iff.rfl) hp
      rw [Pool.Closing]
      show q'.pending = 0 ↔ q'.closed = true ∨ _
      rw [hsame, hclosed]
      exact Iff.trans hs (or_congr_right (exists_congr fun u => (hpc u).symm))
  | notifyOne h u hu =>
    refine hs.of_iff (show ((s.goto u .parkWoken).goto t .running).queue = s.queue from rfl) ?_
    have hparked : s.pc u ≠ .closeSwap := by
      rw [hu]
      exact nofun
    have hwoken := closeSwap_iff (s := s) (p := .parkWoken) nofun (fun _ => Iff.rfl) hparked
    exact closeSwap_iff nofun hwoken (hne h nofun)
  | notifyNone h hnone => exact hs.of_iff rfl (closeSwap_iff nofun (fun _ => Iff.rfl) (hne h nofun))
  | notifyWake h =>
    exact hs.of_iff rfl (closeSwap_iff nofun (fun _ => wake_closeSwap) (hne h nofun))
  | notifyGate h =>
    exact hs.of_iff rfl
      (closeSwap_iff home_ne_closeSwap (fun _ => wakeGate_closeSwap) (hne h nofun))
  | openNotify h =>
    exact hs.of_iff rfl (closeSwap_iff nofun (fun _ => wakeGate_closeSwap) (hne h nofun))
  | spuriousWake h | spuriousGate h =>
    exact hs.of_iff rfl (closeSwap_iff nofun (fun _ => Iff.rfl) (hne h nofun))

theorem Pool.Closing.start : (Pool.start l Task).Closing := by
  refine ⟨nofun, ?_⟩
  rintro (hclosed | ⟨t, ht⟩)
  · cases hclosed
  · cases t <;> cases ht

/-! ## Waiting in a closed queue -/

/-- Whether `closer` is still to notify a thread that waits, or is about to. -/
def tells : Pc Task → Pc Task → Bool
  | .parkWait, closer | .gateWait, closer =>
    match closer with
    | .closeLock => true
    | _ => false
  | .parkWaiting, closer =>
    match closer with
    | .closeLock | .closeUnlock | .notifyWake => true
    | _ => false
  | .gateWaiting, closer =>
    match closer with
    | .closeLock | .closeUnlock | .notifyWake | .notifyGate => true
    | _ => false
  | _, _ => true

/-- In a closed queue, every waiter is yet to be notified. -/
def Pool.Told (s : Pool l Task) : Prop :=
  s.queue.closed = true → ∀ u, ∃ c, tells (s.pc u) (s.pc c) = true

theorem tells_closeLock (w : Pc Task) : tells w .closeLock = true := by
  cases w <;> rfl

/-- A thread that comes to wait in a closed queue has already found it open. -/
theorem Operation.waits (h : Operation q t p a q' p') (hclosed : q.closed = true) :
    (∀ c, tells p' c = true) ∨ ∀ c, tells p c = true → tells p' c = true ∧ c ≠ p := by
  cases h with
  | gateWait =>
    right
    intro c hc
    cases c <;> simp_all [tells]
  | parkWait =>
    right
    intro c hc
    cases c <;> simp_all [tells]
  | gateNotClosed h | parkNotClosed h => rw [h] at hclosed; cases hclosed
  | releaseOne h => left; intro c; cases t <;> rfl
  | closeAgain h => left; intro c; cases t <;> rfl
  | _ => left; intro c; rfl

theorem tells_of {w c} (h : tells w c = true) (hc : tells .gateWaiting c = false)
    (c' : Pc Task) : tells w c' = true := by
  cases w with
  | parkWait | gateWait | parkWaiting => cases c <;> simp_all [tells]
  | gateWaiting =>
    rw [hc] at h
    cases h
  | _ => rfl

/-- A closer goes on to notify, once the waiters have left the mutex. -/
theorem Operation.goes_on (h : Operation q t p a q' p') (w : Pc Task) (hw : tells w p = true) :
    tells w p' = true ∨ (q.park = false ∧ parkShare w = 1) := by
  cases h with
  | closeLock hfree => cases w <;> simp_all [tells, parkShare]
  | closeUnlock => cases w <;> simp_all [tells]
  | _ => exact .inl (tells_of hw rfl _)

theorem Operation.closes (h : Operation q t p a q' p') (hopen : q.closed = false)
    (hclosed : q'.closed = true) : p' = .closeLock := by
  cases h <;> simp_all

theorem Pool.Told.own (hs : s.Told) (hcounted : s.Counted)
    (h : Operation s.queue t (s.pc t) a q' p') :
    Pool.Told { queue := q', pc := Function.update s.pc t p' } := by
  intro hclosed u
  have hself : Function.update s.pc t p' t = p' := update_self ..
  have hother : ∀ v, v ≠ t → Function.update s.pc t p' v = s.pc v := fun v hv =>
    update_of_ne hv _ _
  show ∃ c, tells (Function.update s.pc t p' u) (Function.update s.pc t p' c) = true
  cases hbefore : s.queue.closed with
  | false =>
    refine ⟨t, ?_⟩
    rw [hself, h.closes hbefore hclosed]
    exact tells_closeLock _
  | true =>
    obtain ⟨c, hc⟩ := hs hbefore u
    by_cases hut : u = t
    · subst hut
      rcases h.waits hbefore with hall | hwaits
      · exact ⟨u, by rw [hself]; exact hall _⟩
      · obtain ⟨htells, hne⟩ := hwaits _ hc
        have hcu : c ≠ u := fun heq => hne (by rw [heq])
        exact ⟨c, by rw [hself, hother c hcu]; exact htells⟩
    · by_cases hct : c = t
      · subst hct
        rcases h.goes_on _ hc with htells | ⟨hfree, hheld⟩
        · exact ⟨c, by rw [hself, hother u hut]; exact htells⟩
        · have hle := le_total (fun _ => parkShare) s.pc u
          have hcount := hcounted.park
          rw [hfree, shares, Bool.toNat_false] at hcount
          omega
      · exact ⟨c, by rw [hother u hut, hother c hct]; exact hc⟩

/-- A waiter that is woken, and a closer that notifies nobody more. -/
theorem Pool.Told.goto (hs : s.Told) (hself : ∀ c, tells p c = true)
    (htells : ∀ u, tells (s.pc u) (s.pc t) = true → tells (s.pc u) p = true) :
    (s.goto t p).Told := by
  intro hclosed u
  obtain ⟨c, hc⟩ := hs hclosed u
  show ∃ c, tells (Function.update s.pc t p u) (Function.update s.pc t p c) = true
  by_cases hut : u = t
  · subst hut
    refine ⟨u, ?_⟩
    rw [update_self]
    exact hself _
  · refine ⟨c, ?_⟩
    rw [update_of_ne hut]
    by_cases hct : c = t
    · subst hct
      rw [update_self]
      exact htells u hc
    · rwa [update_of_ne hct]

theorem tells_wake {w c : Pc Task} (h : tells w c = true) :
    tells (Pool.wake w) (Pool.wake c) = true := by
  cases w with
  | parkWait | gateWait | gateWaiting => cases c <;> simp_all [tells, Pool.wake]
  | _ => rfl

theorem tells_wakeGate {w c : Pc Task} (h : tells w c = true) :
    tells (Pool.wakeGate w) (Pool.wakeGate c) = true := by
  cases w with
  | parkWait | gateWait | parkWaiting => cases c <;> simp_all [tells, Pool.wakeGate]
  | _ => rfl

theorem Pool.Told.step (hs : s.Told) (hcounted : s.Counted) (h : Pool.Step s t a s') : s'.Told := by
  cases h with
  | own h => exact hs.own hcounted h
  | notifyOne h u hu =>
    have hwoken : (s.goto u .parkWoken).Told := by
      apply hs.goto fun _ => rfl
      intro v hv
      rw [hu] at hv
      exact tells_of hv rfl _
    have hne : t ≠ u := by
      rintro rfl
      rw [h] at hu
      cases hu
    have hpc : (s.goto u .parkWoken).pc t = .pushNotify :=
      (update_of_ne hne _ _).trans h
    apply hwoken.goto fun _ => rfl
    intro v hv
    rw [hpc] at hv
    exact tells_of hv rfl _
  | notifyNone h hnone =>
    apply hs.goto fun _ => rfl
    intro v hv
    rw [h] at hv
    exact tells_of hv rfl _
  | notifyWake h =>
    have hwoken : Pool.Told { s with pc := wake ∘ s.pc } := by
      intro hclosed u
      obtain ⟨c, hc⟩ := hs hclosed u
      exact ⟨c, tells_wake hc⟩
    apply hwoken.goto fun _ => rfl
    intro u hu
    simp only [comp_apply, h] at hu ⊢
    generalize s.pc u = w at hu ⊢
    cases w <;> simp_all [tells, wake]
  | notifyGate h =>
    have hwoken : Pool.Told { s with pc := wakeGate ∘ s.pc } := by
      intro hclosed u
      obtain ⟨c, hc⟩ := hs hclosed u
      exact ⟨c, tells_wakeGate hc⟩
    apply hwoken.goto
    · intro c
      cases t <;> rfl
    · intro u hu
      simp only [comp_apply, h] at hu ⊢
      generalize s.pc u = w at hu ⊢
      cases w <;> simp_all [tells, wakeGate]
  | openNotify h =>
    have hwoken : Pool.Told { s with pc := wakeGate ∘ s.pc } := by
      intro hclosed u
      obtain ⟨c, hc⟩ := hs hclosed u
      exact ⟨c, tells_wakeGate hc⟩
    apply hwoken.goto fun _ => rfl
    intro u hu
    simp only [comp_apply, h] at hu
    exact tells_of hu rfl _
  | spuriousWake h =>
    apply hs.goto fun _ => rfl
    intro v hv
    rw [h] at hv
    exact tells_of hv rfl _
  | spuriousGate h =>
    apply hs.goto fun _ => rfl
    intro v hv
    rw [h] at hv
    exact tells_of hv rfl _

theorem Pool.Told.start : (Pool.start l Task).Told := nofun

end Ish.Scan
