import Ish.Scan.System

/-!
# What holds throughout a scan

The invariants of the queue and of the table of directories, for every state that
a scan reaches.
-/

namespace Ish.Scan

open Ish.Lib.Threads List

variable {l : Limits} {g g' : Shared} {t : Thread l} {v v' : Local} {s : ScanContext l}

/-! ## The end of the root's thread -/

/-- Sending what is left changes neither the table nor any hold. -/
structure Unmoved (g : Shared) (v : Local) (g' : Shared) (v' : Local) : Prop where
  next_token : g'.next_token = g.next_token
  parent : g'.progress.parent = g.progress.parent
  pending : g'.progress.pending = g.progress.pending
  incomplete : g'.progress.incomplete = g.progress.incomplete
  published : g'.published = g.published
  faults : g'.faults = g.faults
  finishes : g'.finishes = g.finishes
  outbox : v'.outbox = v.outbox
  holds : ∀ table, v.work.holds table = [] ∧ v'.work.holds table = []
  settles : v.work.settles = [] ∧ v'.work.settles = []
  blames : v.work.blames = [] ∧ v'.work.blames = []
  tokens : v.work.tokens = [] ∧ v'.work.tokens = []

theorem Ends.unmoved (h : Ends g v g' v') : Unmoved g v g' v' := by
  cases h with
  | join o =>
    exact ⟨rfl, rfl, rfl, rfl, rfl, rfl, rfl, rfl, fun _ => ⟨rfl, rfl⟩, ⟨rfl, rfl⟩, ⟨rfl, rfl⟩,
      ⟨rfl, rfl⟩⟩
  | send o =>
    refine ⟨rfl, rfl, rfl, rfl, rfl, rfl, ?_, rfl, fun _ => ⟨rfl, rfl⟩, ⟨rfl, rfl⟩, ⟨rfl, rfl⟩,
      ⟨rfl, rfl⟩⟩
    simp [Shared.finishes, finishesOf]
  | flushFinishes o =>
    have hprogress : g.progress.flush_finishes.1.parent = g.progress.parent ∧
        g.progress.flush_finishes.1.pending = g.progress.pending ∧
        g.progress.flush_finishes.1.incomplete = g.progress.incomplete := by
      unfold ScanProgress.flush_finishes
      split <;> exact ⟨rfl, rfl, rfl⟩
    refine ⟨rfl, hprogress.1, hprogress.2.1, hprogress.2.2, rfl, rfl, ?_, rfl,
      fun _ => ⟨rfl, rfl⟩, ⟨rfl, rfl⟩, ⟨rfl, rfl⟩, ⟨rfl, rfl⟩⟩
    simp only [Shared.finishes, ScanProgress.flush_finishes]
    split
    · simp
    · simp [finishesOf]

theorem Ends.staged (hstage : v.Staged) (h : Ends g v g' v') : v'.Staged := by
  cases h <;> exact hstage

/-- The root's thread has sent everything but what `Ends` sends. -/
theorem Ends.empty (hstage : v.Staged) (h : Ends g v g' v') :
    v.outbox.batch = [] ∧ v.outbox.notices = [] ∧ v.outbox.held = [] ∧ v.outbox.releases = [] := by
  cases h <;> exact hstage

theorem Ends.sends (h : Ends g v g' v') : ∃ sent, g'.items = g.items ++ sent ∧
    (∀ entry, Item.entry entry ∉ sent) ∧
    (∀ item ∈ sent, item.introduces = [] ∧ ∀ token ∈ item.names,
      token ∈ g.progress.pending_finishes.map Prod.fst) ∧
    ∀ finish ∈ g'.progress.pending_finishes, finish ∈ g.progress.pending_finishes := by
  cases h with
  | join o => exact ⟨[], (append_nil _).symm, by rintro entry ⟨⟩, by rintro item ⟨⟩, fun _ => id⟩
  | send o =>
    refine ⟨_, items_append .., ?_, ?_, fun _ => id⟩
    · simp [ScanEvent.items]
    · simp [ScanEvent.items, Item.introduces, Item.names]
  | flushFinishes o =>
    refine ⟨_, items_append { g with progress := g.progress.flush_finishes.1 } _, ?_, ?_, ?_⟩
    all_goals
      simp only [ScanProgress.flush_finishes]
      split
    · simp
    · simp [ScanEvent.items]
    · simp
    · simp only [flatMap_cons, flatMap_nil, ScanEvent.items, append_nil]
      intro item hitem
      obtain ⟨finish, hfinish, rfl⟩ := mem_map.mp hitem
      refine ⟨rfl, fun token htoken => ?_⟩
      rw [mem_singleton.mp htoken]
      exact mem_map_of_mem hfinish
    · exact fun _ => id
    · rintro finish ⟨⟩

theorem Unmoved.counted (hs : s.Counted) (h : Unmoved s.shared (s.threads t) g' v') :
    (s.goto t g' v').Counted := by
  apply hs.quiet h.next_token h.pending h.parent
  · intro token
    rw [Local.holds, Local.holds, (h.holds _).1, (h.holds _).2, h.outbox, h.published]
  · intro token
    rw [h.finishes, h.settles.1, h.settles.2]

theorem Unmoved.ordered (hs : s.Ordered) (h : Unmoved s.shared (s.threads t) g' v')
    (hbatch : (s.threads t).outbox.batch = []) {sent}
    (hitems : g'.items = s.shared.items ++ sent) (hsent : ∀ entry, Item.entry entry ∉ sent) :
    (s.goto t g' v').Ordered where
  owned u := by
    by_cases hu : u = t
    · rw [hu, s.goto_self, h.outbox, hbatch]
      exact nofun
    · rw [s.goto_of_ne _ _ hu]
      show ∀ entry ∈ (s.threads u).outbox.batch, entry.parent ∈ (s.threads u).holds g'.progress.parent
      rw [h.parent]
      exact hs.owned u
  entries := by
    show g'.items.Pairwise NotLate
    rw [hitems]
    exact pairwise_append_of_no_entry hs.entries hsent
  below before finish after hfinishes child hchild := by
    replace hfinishes : g'.finishes = before ++ finish :: after := hfinishes
    replace hchild : g'.progress.parent child = some finish.1 := hchild
    rw [h.finishes] at hfinishes
    rw [h.parent] at hchild
    exact hs.below before finish after hfinishes child hchild

theorem Unmoved.blames_eq (h : Unmoved s.shared (s.threads t) g' v') (u : Thread l) :
    ((s.goto t g' v').threads u).blames = (s.threads u).blames := by
  by_cases hu : u = t
  · rw [hu, s.goto_self, Local.blames, Local.blames, h.blames.1, h.blames.2, h.outbox]
  · rw [s.goto_of_ne _ _ hu]

theorem Unmoved.faulty_iff (h : Unmoved g v g' v') (token : DirectoryToken) :
    g'.Faulty token ↔ g.Faulty token := by
  rw [Shared.Faulty, Shared.Faulty, h.faults]
  unfold Shared.Below
  rw [h.parent]

theorem Unmoved.blamed (hs : s.Blamed) (h : Unmoved s.shared (s.threads t) g' v') :
    (s.goto t g' v').Blamed where
  incomplete token htoken := by
    replace htoken : g'.progress.incomplete token = true := htoken
    rw [h.incomplete] at htoken
    exact (h.faulty_iff token).mpr (hs.incomplete token htoken)
  blames u token htoken := by
    rw [h.blames_eq] at htoken
    exact (h.faulty_iff token).mpr (hs.blames u token htoken)

theorem Unmoved.judged (hs : s.Judged) (h : Unmoved s.shared (s.threads t) g' v') :
    (s.goto t g' v').Judged where
  fresh token hfresh := by
    show g'.progress.incomplete token = false
    rw [h.incomplete]
    exact hs.fresh token (h.next_token ▸ hfresh)
  fault token htoken := by
    replace htoken : token ∈ g'.faults := htoken
    rw [h.faults] at htoken
    show g'.progress.incomplete token = true ∨ _
    simp only [h.incomplete, h.blames_eq]
    exact hs.fault token htoken
  child child parent hparent hchild hzero := by
    replace hparent : g'.progress.parent child = some parent := hparent
    replace hchild : g'.progress.incomplete child = true := hchild
    replace hzero : g'.progress.pending child = 0 := hzero
    rw [h.parent] at hparent
    rw [h.incomplete] at hchild
    rw [h.pending] at hzero
    show g'.progress.incomplete parent = true ∨ _
    simp only [h.incomplete, h.blames_eq]
    rcases hs.child child parent hparent hchild hzero with hset | hmine | ⟨u, hu⟩
    · exact .inl hset
    · exact .inr (.inl hmine)
    · refine .inr (.inr ⟨u, ?_⟩)
      rw [s.goto_of_ne]
      · exact hu
      · rintro rfl
        rw [h.settles.1] at hu
        cases hu
  finished finish hfinish := by
    replace hfinish : finish ∈ g'.finishes := hfinish
    show finish.2 = !g'.progress.incomplete finish.1
    rw [h.finishes] at hfinish
    rw [h.incomplete]
    exact hs.finished finish hfinish
  finishing u token complete after hwork := by
    show complete = !g'.progress.incomplete token
    rw [h.incomplete]
    by_cases hu : u = t
    · rw [hu, s.goto_self] at hwork
      have hsettles := h.settles.2
      rw [hwork] at hsettles
      cases hsettles
    · rw [s.goto_of_ne _ _ hu] at hwork
      exact hs.finishing u token complete after hwork

theorem Ends.announced (hs : s.Announced) (hstage : (s.threads t).Staged)
    (h : Ends s.shared (s.threads t) g' v') : (s.goto t g' v').Announced := by
  obtain ⟨sent, hitems, -, hnames, hkept⟩ := h.sends
  have hmem : ∀ token ∈ s.shared.progress.pending_finishes.map Prod.fst,
      token ∈ introductions s.shared.items := by
    intro token htoken
    obtain ⟨finish, hfinish, rfl⟩ := mem_map.mp htoken
    exact hs.finishes finish hfinish
  have hbatch := (h.empty hstage).1
  apply hs.send rfl hitems h.unmoved.published h.unmoved.parent
  · exact fun finish hfinish => hs.finishes finish (hkept finish hfinish)
  · exact fun item hitem => ⟨(hnames item hitem).1, fun token htoken =>
      hmem token ((hnames item hitem).2 token htoken)⟩
  · exact hbatch
  · rw [h.unmoved.outbox, hbatch]
  · intro token htoken
    left
    rw [Local.tokens, h.unmoved.tokens.2, h.unmoved.outbox] at htoken
    rw [Local.tokens, h.unmoved.tokens.1]
    exact htoken

/-! ## Finished -/

/-- The root's thread sends what is left. -/
def Work.isEnding : Work → Bool
  | .lastFlush | .lastSend | .gone => true
  | _ => false

/-- What is received at the end. -/
def Ended (g : Shared) : Work → Prop
  | .gone => g.progress.pending_finishes = [] ∧
      ∃ before, g.received = before ++ [.Finished] ∧ ScanEvent.Finished ∉ before
  | .lastSend => g.progress.pending_finishes = [] ∧ ScanEvent.Finished ∉ g.received
  | _ => ScanEvent.Finished ∉ g.received

theorem ended_of_not_ending {w} (h : w.isEnding = false)
    (hnone : ScanEvent.Finished ∉ g.received) : Ended g w := by
  cases w with
  | gone | lastSend => cases h
  | _ => exact hnone

theorem Ended.not_mem {w} (h : Ended g w) (hending : w.isEnding = false) :
    ScanEvent.Finished ∉ g.received := by
  cases w with
  | gone | lastSend => cases hending
  | _ => exact h

theorem Ends.ended (hended : Ended g v.work) (h : Ends g v g' v') : Ended g' v'.work := by
  cases h with
  | join o => exact hended
  | flushFinishes o =>
    simp only [Ended, ScanProgress.flush_finishes]
    split
    · rename_i hempty
      refine ⟨by simpa using hempty, ?_⟩
      rw [append_nil]
      exact hended
    · refine ⟨rfl, ?_⟩
      rw [mem_append, mem_singleton]
      exact fun h => h.elim hended nofun
  | send o => exact ⟨hended.1, g.received, rfl, hended.2⟩

theorem Ends.stage (h : Ends g v g' v') : v'.work.stage = .outside := by
  cases h <;> rfl

theorem Scans.not_ending {a} (h : Scans g t v a g' v') :
    v.work.isEnding = false ∧ v'.work.isEnding = false := by
  cases h with
  | reopenFailed token o w hw | scanFailed token complete o w hw
  | scanned token complete o w hw hroot => rcases hw with rfl | rfl <;> exact ⟨rfl, rfl⟩
  | released after o h => cases after <;> exact ⟨rfl, rfl⟩
  | finishDirectory token complete after o =>
    refine ⟨rfl, ?_⟩
    simp only [afterFinish]
    cases g.progress.parent token <;> rfl
  | finish o => cases t <;> exact ⟨rfl, rfl⟩
  | _ => exact ⟨rfl, rfl⟩

theorem Scans.not_finished {a} (h : Scans g t v a g' v')
    (hnone : ScanEvent.Finished ∉ g.received) : ScanEvent.Finished ∉ g'.received := by
  cases h with
  | sendEntries after o h | sendNotice after o notice notices h =>
    rw [mem_append, mem_singleton]
    exact fun h => h.elim hnone (by rintro ⟨⟩)
  | finishDirectory token complete after o =>
    simp only [ScanProgress.push_finished]
    split
    · rwa [append_nil]
    · rw [mem_append, mem_singleton]
      exact fun h => h.elim hnone (by rintro ⟨⟩)
  | _ => exact hnone

/-! ## The scan and its queue -/

/-- **What holds in every state of a scan.** -/
structure System.Sound (s : System l) : Prop where
  pool : s.pool.Sound
  counted : s.scan.Counted
  staged : ∀ t, (s.scan.threads t).Staged
  announced : s.scan.Announced
  ordered : s.scan.Ordered
  blamed : s.scan.Blamed
  judged : s.scan.Judged
  stage : ∀ t, (s.pool.pc t).stage = (s.scan.threads t).work.stage
  published : s.scan.shared.published = s.pool.waitingTasks
  returned : (s.scan.threads none).work.isEnding = true → ∀ t, s.pool.pc t = .returned
  ended : Ended s.scan.shared (s.scan.threads none).work

namespace System

variable {s s' : System l}

theorem Sound.moves {pool a} (hs : s.Sound)
    (hpool : pool.Sound) (hstage : (pool.pc t).stage = a.stage (s.pool.pc t).stage ∧
      ∀ u, u ≠ t → (pool.pc u).stage = (s.pool.pc u).stage)
    (htasks : a.Moves s.pool.waitingTasks pool.waitingTasks) (hruns : s.pool.pc t ≠ .returned)
    (hscan : Scans s.scan.shared t (s.scan.threads t) a g' v') :
    System.Sound { pool, scan := s.scan.goto t g' v' } where
  pool := hpool
  counted := hs.counted.goto (hs.staged t) hscan
  staged u := by
    by_cases hu : u = t
    · rw [hu, ScanContext.goto_self]
      exact hscan.staged (hs.staged t)
    · rw [s.scan.goto_of_ne _ _ hu]
      exact hs.staged u
  announced := hs.announced.goto hs.counted (hs.staged t) hscan
  ordered := hs.ordered.goto hs.counted (hs.staged t) hscan
  blamed := hs.blamed.goto hs.counted hs.judged (hs.staged t) hscan
  judged := hs.judged.goto hs.counted (hs.staged t) hscan
  stage u := by
    by_cases hu : u = t
    · rw [hu, ScanContext.goto_self, hscan.stage, ← hs.stage t]
      exact hstage.1
    · rw [s.scan.goto_of_ne _ _ hu, ← hs.stage u]
      exact hstage.2 u hu
  published := by
    have hmoves := hscan.moves
    rw [hs.published] at hmoves
    exact hmoves.unique htasks
  returned hending := by
    by_cases hroot : none = t
    · subst hroot
      rw [ScanContext.goto_self, hscan.not_ending.2] at hending
      cases hending
    · rw [s.scan.goto_of_ne _ _ hroot] at hending
      exact absurd (hs.returned hending t) hruns
  ended := by
    have hnone : ScanEvent.Finished ∉ s.scan.shared.received := by
      apply hs.ended.not_mem
      by_contra hending
      exact hruns (hs.returned (by simpa using hending) t)
    apply ended_of_not_ending _ (hscan.not_finished hnone)
    by_cases hroot : none = t
    · subst hroot
      rw [ScanContext.goto_self]
      exact hscan.not_ending.2
    · rw [s.scan.goto_of_ne _ _ hroot]
      by_contra hending
      exact hruns (hs.returned (by simpa using hending) t)

theorem Sound.step (hs : s.Sound) (h : Step s t s') : s'.Sound := by
  cases h with
  | queue h =>
    refine ⟨hs.pool.step h, hs.counted, hs.staged, hs.announced, hs.ordered, hs.blamed, hs.judged,
      fun u => ?_, hs.published.trans h.moves.symm, fun hending => ?_, hs.ended⟩
    · rw [← hs.stage u]
      by_cases hu : u = t
      · rw [hu]
        exact h.stage.1
      · exact h.stage.2 u hu
    · exact absurd (hs.returned hending t) h.not_returned
  | scan hrun h =>
    apply hs.moves (a := .tau) hs.pool ⟨rfl, fun _ _ => rfl⟩ rfl _ h
    rw [hrun]
    exact nofun
  | both ha hpool hscan =>
    exact hs.moves (hs.pool.step hpool) hpool.stage hpool.moves hpool.not_returned hscan
  | ends ht hjoin h =>
    subst ht
    have hunmoved := h.unmoved
    have hempty := h.empty (hs.staged none)
    obtain ⟨sent, hitems, hsent, -, -⟩ := h.sends
    constructor
    case pool => exact hs.pool
    case counted => exact hunmoved.counted hs.counted
    case announced => exact h.announced hs.announced (hs.staged none)
    case ordered => exact hunmoved.ordered hs.ordered hempty.1 hitems hsent
    case blamed => exact hunmoved.blamed hs.blamed
    case judged => exact hunmoved.judged hs.judged
    case returned => exact fun _ => hjoin
    case published => exact hunmoved.published.trans hs.published
    case staged =>
      intro u
      by_cases hu : u = none
      · rw [hu, ScanContext.goto_self]
        exact h.staged (hs.staged none)
      · rw [s.scan.goto_of_ne _ _ hu]
        exact hs.staged u
    case stage =>
      intro u
      by_cases hu : u = none
      · rw [hu, ScanContext.goto_self, hjoin none, h.stage]
        rfl
      · rw [s.scan.goto_of_ne _ _ hu]
        exact hs.stage u
    case ended =>
      rw [ScanContext.goto_self]
      exact h.ended hs.ended

theorem counted_start (l : Limits) : (ScanContext.start l).Counted where
  pending token := by
    have hheld : (ScanContext.start l).held token = if token = 0 then 1 else 0 := by
      rw [ScanContext.held, total, Fintype.sum_option]
      simp [ScanContext.start, Local.holds, Work.holds, Outbox.new, count_singleton,
        eq_comm (a := token)]
    have hchildren : (ScanContext.start l).shared.children token = ∅ := by
      simp [ScanContext.start, Shared.children, ScanProgress.new, ScanProgress.register_root]
    rw [hheld, hchildren]
    exact Function.update_apply ..
  settled token := by
    have hsettled : (ScanContext.start l).settled token = 0 := by
      rw [ScanContext.settled, total, Fintype.sum_option]
      simp [ScanContext.start, Work.settles, Shared.finishes, ScanProgress.new,
        ScanProgress.register_root, finishesOf]
    rw [hsettled, if_neg]
    rintro ⟨hlt, hzero⟩
    obtain rfl : token = 0 := Nat.lt_one_iff.mp hlt
    cases hzero
  parent child parent h := by cases h
  fresh token h := by
    have hne : token ≠ 0 := Nat.pos_iff_ne_zero.mp h
    exact Function.update_of_ne hne ..
  root := Nat.one_pos

theorem announced_start (l : Limits) : (ScanContext.start l).Announced where
  received := by simp [ScanContext.start, Shared.items, ScanEvent.items, Introduced, Item.names]
  batch t := by cases t <;> trivial
  tokens t token h := by
    cases t with
    | none =>
      obtain rfl : token = 0 := by
        simpa [ScanContext.start, Local.tokens, Work.tokens, Outbox.new] using h
      exact mem_cons_self
    | some index => cases h
  published := nofun
  finishes := nofun
  sent entry h := by simp [ScanContext.start, Shared.items, ScanEvent.items] at h
  unsent t entry h := by cases t <;> cases h

theorem ordered_start (l : Limits) : (ScanContext.start l).Ordered where
  owned t entry h := by cases t <;> cases h
  entries := pairwise_singleton ..
  below before finish after h := by
    have hnone : (ScanContext.start l).shared.finishes = [] := rfl
    rw [hnone] at h
    simp at h

theorem judged_start (l : Limits) : (ScanContext.start l).Judged where
  fresh _ _ := rfl
  fault := nofun
  child child parent h := by cases h
  finished := nofun
  finishing t token complete after h := by cases t <;> cases h

theorem Sound.start (l : Limits) : (start l).Sound where
  pool := .start l DirectoryToken
  counted := counted_start l
  staged t := by
    cases t with
    | none => trivial
    | some index => exact ⟨rfl, rfl, rfl, rfl⟩
  announced := announced_start l
  ordered := ordered_start l
  blamed := ⟨nofun, fun t token h => by cases t <;> cases h⟩
  judged := judged_start l
  stage t := by cases t <;> rfl
  published := by
    show 0 = Multiset.map _ 0 + total _ _
    rw [Multiset.map_zero, total_zero]
    · rfl
    · intro t
      cases t <;> rfl
  returned := nofun
  ended := by
    show ScanEvent.Finished ∉ [ScanEvent.Started]
    simp

theorem Reachable.sound (h : s.Reachable) : s.Sound := by
  induction h with
  | start => exact Sound.start l
  | step _ hstep ih => exact ih.step hstep

end System

end Ish.Scan
