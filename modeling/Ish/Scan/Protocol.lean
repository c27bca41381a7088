import Ish.Scan.Soundness

/-!
# The protocol of a scan

What a scan sends, in every interleaving of its threads, and how it ends.
-/

namespace Ish.Scan

open Ish.Lib.Threads List

variable {l : Limits} {s s' : System l} {t : Thread l}

/-! ## The sequence of items -/

/-- `child` is below `token`, by the entries in `items`. -/
def Under (items : List Item) (child token : DirectoryToken) : Prop :=
  Relation.TransGen (fun child parent => ∃ entry, Item.entry entry ∈ items ∧
    entry.directory_token = some child ∧ entry.parent = parent) child token

def Item.asFinish : Item → Option (DirectoryToken × Bool)
  | .finish token complete => some (token, complete)
  | _ => none

theorem asFinish_eq_some {item : Item} :
    item.asFinish = some finish ↔ item = .finish finish.1 finish.2 := by
  cases item <;> simp [Item.asFinish, Prod.ext_iff, eq_comm]

theorem received_finishes (events : List ScanEvent) :
    events.flatMap finishesOf = (events.flatMap ScanEvent.items).filterMap Item.asFinish := by
  induction events with
  | nil => rfl
  | cons event events ih =>
    rw [flatMap_cons, flatMap_cons, filterMap_append, ih]
    congr 1
    cases event with
    | Started | About notice | Finished => rfl
    | Entries entries =>
      symm
      simp [finishesOf, ScanEvent.items, Item.asFinish]
    | DirectoriesFinished finishes =>
      simp [finishesOf, ScanEvent.items, Item.asFinish, Function.comp_def]

variable {token : DirectoryToken}

theorem finishes_split {g : Shared} {before after} (h : g.items = before ++ .finish token complete :: after) :
    g.finishes = before.filterMap Item.asFinish ++ (token, complete) ::
      (after.filterMap Item.asFinish ++ g.progress.pending_finishes) := by
  rw [Shared.finishes, received_finishes, ← Shared.items, h, filterMap_append,
    filterMap_cons]
  simp [Item.asFinish]

theorem mem_asFinish {items : List Item} :
    token ∈ (items.filterMap Item.asFinish).map Prod.fst ↔
      ∃ complete, Item.finish token complete ∈ items := by
  simp only [mem_map, mem_filterMap, asFinish_eq_some]
  constructor
  · rintro ⟨⟨other, complete⟩, ⟨item, hitem, rfl⟩, rfl⟩
    exact ⟨complete, hitem⟩
  · rintro ⟨complete, hmem⟩
    exact ⟨(token, complete), ⟨_, hmem, rfl⟩, rfl⟩

/-! ## Trees -/

theorem ScanContext.Announced.below_of_under {s : ScanContext l} (hs : s.Announced) (h : Under s.shared.items child token) :
    s.shared.Below token child := by
  induction h with
  | single hstep =>
    obtain ⟨entry, hentry, hchild, rfl⟩ := hstep
    exact .single (hs.sent entry hentry _ hchild)
  | tail _ hstep ih =>
    obtain ⟨entry, hentry, hchild, rfl⟩ := hstep
    exact Relation.ReflTransGen.tail ih (hs.sent entry hentry _ hchild)

theorem ScanContext.Announced.mem_of_finished {s : ScanContext l} (hs : s.Announced)
    (h : token ∈ s.shared.finishes.map Prod.fst) : token ∈ introductions s.shared.items := by
  obtain ⟨⟨other, complete⟩, hfinish, rfl⟩ := mem_map.mp h
  rcases mem_append.mp hfinish with hsent | hpending
  · rw [received_finishes, ← Shared.items, mem_filterMap] at hsent
    obtain ⟨item, hitem, hsame⟩ := hsent
    rw [asFinish_eq_some] at hsame
    subst hsame
    obtain ⟨before, after, hitems⟩ := append_of_mem hitem
    have hknown := (hitems ▸ hs.received).split other (mem_singleton_self _)
    rw [hitems, introductions_append]
    exact mem_append_left _ hknown
  · exact hs.finishes _ hpending

theorem ScanContext.Announced.under_of_below {s : ScanContext l} (hs : s.Announced)
    (hcount : s.Counted) (h : s.shared.Below token child)
    (hfinished : token ∈ s.shared.finishes.map Prod.fst) :
    child = token ∨ Under s.shared.items child token := by
  have hpath : child ∈ s.shared.finishes.map Prod.fst ∧
      (child = token ∨ Under s.shared.items child token) := by
    induction h using Relation.ReflTransGen.head_induction_on with
    | refl => exact ⟨hfinished, .inl rfl⟩
    | @head child parent hparent _ ih =>
      have hchild := hcount.children_finished (hcount.of_finished ih.1).2 hparent
      refine ⟨hchild, .inr ?_⟩
      rcases mem_introductions (hs.mem_of_finished hchild) with rfl | ⟨entry, hentry, htoken⟩
      · exact absurd (hcount.parent 0 parent hparent).1 (Nat.not_lt_zero parent)
      · have htable := hs.sent entry hentry child htoken
        rw [hparent, Option.some.injEq] at htable
        have hstep : ∃ entry, Item.entry entry ∈ s.shared.items ∧
            entry.directory_token = some child ∧ entry.parent = parent :=
          ⟨entry, hentry, htoken, htable.symm⟩
        rcases ih.2 with rfl | hunder
        · exact .single hstep
        · exact Relation.TransGen.head hstep hunder
  exact hpath.2

theorem ScanContext.Ordered.under {s : ScanContext l} (hs : s.Ordered) (hannounced : s.Announced) (h : Under s.shared.items child token) :
    ∀ before complete after, s.shared.finishes = before ++ (token, complete) :: after →
      child ∈ before.map Prod.fst := by
  induction h with
  | single hstep =>
    obtain ⟨entry, hentry, hchild, rfl⟩ := hstep
    intro before complete after hfinishes
    exact hs.below before _ after hfinishes _ (hannounced.sent entry hentry _ hchild)
  | tail _ hstep ih =>
    obtain ⟨entry, hentry, hchild, rfl⟩ := hstep
    intro before complete after hfinishes
    have hmem := hs.below before _ after hfinishes _ (hannounced.sent entry hentry _ hchild)
    obtain ⟨⟨other, flag⟩, hflag, rfl⟩ := mem_map.mp hmem
    obtain ⟨first, rest, rfl⟩ := append_of_mem hflag
    rw [append_assoc, cons_append] at hfinishes
    have hearlier := ih first flag _ hfinishes
    rw [map_append]
    exact mem_append_left _ hearlier

theorem ScanContext.Counted.finish_once {s : ScanContext l} (hs : s.Counted)
    {before after complete}
    (h : s.shared.finishes = before ++ (token, complete) :: after) :
    token ∉ before.map Prod.fst ∧ token ∉ after.map Prod.fst := by
  have hsettled := hs.settled token
  have hle : s.settled token ≤ 1 := by
    rw [hsettled]
    split <;> omega
  rw [ScanContext.settled, h, map_append, map_cons, count_append,
    count_cons_self] at hle
  rw [← count_eq_zero, ← count_eq_zero]
  omega

/-! ## The end -/

theorem outside_empty {v : Local} (hstage : v.Staged) (h : v.work.stage = .outside) :
    v.outbox.batch = [] ∧ v.outbox.notices = [] ∧ v.outbox.held = [] ∧ v.outbox.releases = [] ∧
      v.work.settles = [] ∧ ∀ table, v.holds table = [] := by
  obtain ⟨w, o⟩ := v
  cases w with
  | idle | joining | lastFlush | lastSend | gone =>
    obtain ⟨hbatch, hnotices, hheld, hreleases⟩ := hstage
    refine ⟨hbatch, hnotices, hheld, hreleases, rfl, fun table => ?_⟩
    simp only at hheld hreleases
    rw [Local.holds, hheld, hreleases]
    rfl
  | _ => cases h

namespace System

/-- A thread that waits or has returned runs no task. -/
theorem Sound.outside (hs : s.Sound) (hrest : s.pool.Resting) (t : Thread l) :
    (s.scan.threads t).work.stage = .outside := by
  rw [← hs.stage t]
  have h := hrest t
  generalize s.pool.pc t = p at h
  rcases h with hwaits | rfl
  · cases p <;> first | rfl | cases hwaits
  · rfl

/-- **Where all threads rest**, no task is left. -/
theorem Sound.resting (hs : s.Sound) (hrest : s.pool.Resting) :
    s.scan.shared.published = 0 ∧ ∀ t, (s.scan.threads t).outbox.held = [] ∧
      (s.scan.threads t).outbox.releases = [] := by
  obtain ⟨htasks, -, -, hreturned⟩ := hs.pool.resting hrest
  refine ⟨?_, fun t => ?_⟩
  · rw [hs.published, Pool.waitingTasks, htasks, total_zero]
    · rfl
    · intro t
      rw [hreturned t]
      rfl
  · have hempty := outside_empty (hs.staged t) (hs.outside hrest t)
    exact ⟨hempty.2.2.1, hempty.2.2.2.1⟩

/-- **Where all threads rest**, every directory is finished. -/
theorem Sound.all_finished (hs : s.Sound) (hrest : s.pool.Resting) (token : Nat)
    (hlt : token < s.scan.shared.next_token) : token ∈ s.scan.shared.finishes.map Prod.fst := by
  have hempty : ∀ t, _ := fun t => outside_empty (hs.staged t) (hs.outside hrest t)
  have hheld : ∀ token, s.scan.held token = 0 := by
    intro token
    rw [ScanContext.held, (hs.resting hrest).1, total_zero]
    · rfl
    · intro t
      rw [(hempty t).2.2.2.2.2]
      rfl
  have hzero : ∀ left token : Nat, token < s.scan.shared.next_token →
      s.scan.shared.next_token - token = left → s.scan.shared.progress.pending token = 0 := by
    intro left
    induction left using Nat.strong_induction_on with
    | _ left ih =>
      intro token hlt hleft
      rw [hs.counted.pending, hheld, Nat.zero_add, Finset.card_eq_zero]
      apply Finset.eq_empty_of_forall_notMem
      intro child hchild
      -- the directories below are finished first
      obtain ⟨-, hparent, hpositive⟩ := Finset.mem_filter.mp hchild
      have hchildlt := hs.counted.parent child token hparent
      have hdone := ih (s.scan.shared.next_token - child) (by omega) child hchildlt.2 rfl
      omega
  have hsettled := hs.counted.settled token
  have hnobody : total (fun _ (v : Local) => v.work.settles.count token) s.scan.threads = 0 := by
    apply total_zero
    intro t
    rw [(hempty t).2.2.2.2.1]
    rfl
  rw [if_pos ⟨hlt, hzero _ token hlt rfl⟩, ScanContext.settled, hnobody] at hsettled
  exact count_pos_iff.mp (by omega)

/-- **`Finished` is the last event**, and all directories are finished before it. -/
theorem Sound.ended_last (hs : s.Sound) {before after : List Item}
    (h : s.scan.shared.items = before ++ .ended :: after) :
    after = [] ∧ Item.ended ∉ before ∧ ∀ token : Nat, token < s.scan.shared.next_token →
      ∃ complete, Item.finish token complete ∈ before := by
  have hfinished : ∀ events : List ScanEvent, Item.ended ∈ events.flatMap ScanEvent.items →
      ScanEvent.Finished ∈ events := by
    intro events hmem
    obtain ⟨event, hevent, hitem⟩ := mem_flatMap.mp hmem
    cases event with
    | Finished => exact hevent
    | _ => simp [ScanEvent.items] at hitem
  have hreceived : ScanEvent.Finished ∈ s.scan.shared.received :=
    hfinished _ (by rw [← Shared.items, h]; simp)
  have hended := hs.ended
  have hgone : (s.scan.threads none).work = .gone := by
    generalize (s.scan.threads none).work = w at hended
    cases w with
    | gone => rfl
    | lastSend => exact absurd hreceived hended.2
    | _ => exact absurd hreceived hended
  rw [hgone] at hended
  obtain ⟨hpending, events, hevents, hnone⟩ := hended
  have hitems : s.scan.shared.items = events.flatMap ScanEvent.items ++ [.ended] := by
    rw [Shared.items, hevents, flatMap_append]
    rfl
  have hfirst : Item.ended ∉ events.flatMap ScanEvent.items := fun hmem =>
    hnone (hfinished events hmem)
  obtain ⟨rfl, rfl⟩ : after = [] ∧ before = events.flatMap ScanEvent.items := by
    rw [h] at hitems
    rcases eq_nil_or_concat after with rfl | ⟨rest, last, rfl⟩
    · exact ⟨rfl, (append_inj' hitems rfl).1⟩
    · rw [concat_eq_append, ← cons_append, ← append_assoc] at hitems
      have hmem := (append_inj' hitems rfl).1
      rw [← hmem] at hfirst
      simp at hfirst
  refine ⟨rfl, hfirst, fun token hlt => ?_⟩
  have hreturned := hs.returned (by rw [hgone]; rfl)
  have hdone := hs.all_finished (fun t => .inr (hreturned t)) token hlt
  rw [Shared.finishes, hpending, append_nil, received_finishes, mem_asFinish, ← Shared.items,
    h] at hdone
  obtain ⟨complete, hmem⟩ := hdone
  refine ⟨complete, ?_⟩
  simpa using hmem

/-- **A directory is finished** once, behind its entries and all that is below it. -/
theorem Sound.finish_behind (hs : s.Sound) {before after : List Item}
    (hitems : s.scan.shared.items = before ++ .finish token complete :: after) :
    (∀ again, Item.finish token again ∉ before ++ after) ∧
    (∀ entry, Item.entry entry ∈ after → entry.parent ≠ token) ∧
    ∀ child, Under s.scan.shared.items child token → ∃ flag, Item.finish child flag ∈ before := by
  have hfinishes := finishes_split hitems
  refine ⟨?_, ?_, ?_⟩
  · intro again hagain
    have honce := hs.counted.finish_once hfinishes
    rcases mem_append.mp hagain with hbefore | hafter
    · exact honce.1 (mem_asFinish.mpr ⟨again, hbefore⟩)
    · apply honce.2
      rw [map_append]
      exact mem_append_left _ (mem_asFinish.mpr ⟨again, hafter⟩)
  · intro entry hentry
    have hlate := hs.ordered.entries
    rw [hitems, pairwise_append, pairwise_cons] at hlate
    exact hlate.2.1.1 _ hentry token complete entry rfl rfl
  · intro child hchild
    rw [← mem_asFinish]
    exact hs.ordered.under hs.announced hchild _ complete _ hfinishes

/-- **What a scan sends**, in any state it reaches. Each item names directories
that were introduced before it. A directory is finished once, behind its entries
and behind the directories below it, and as complete exactly when no scan of one
of these met an error or an exclusion. `Finished` is last, behind the finish of
the root and of every directory that was introduced. -/
theorem events_in_order (h : s.Reachable) :
    (∀ before item after, s.scan.shared.items = before ++ item :: after →
      ∀ token ∈ item.names, token ∈ introductions before) ∧
    (∀ before token complete after,
      s.scan.shared.items = before ++ .finish token complete :: after →
      (∀ again, Item.finish token again ∉ before ++ after) ∧
      (∀ entry, Item.entry entry ∈ after → entry.parent ≠ token) ∧
      (∀ child, Under s.scan.shared.items child token →
        ∃ flag, Item.finish child flag ∈ before) ∧
      (complete = true ↔ ∀ other, other = token ∨ Under s.scan.shared.items other token →
        other ∉ s.scan.shared.faults)) ∧
    (∀ before after, s.scan.shared.items = before ++ .ended :: after →
      after = [] ∧ Item.ended ∉ before ∧ (∃ flag, Item.finish 0 flag ∈ before) ∧
      ∀ token ∈ introductions before, ∃ flag, Item.finish token flag ∈ before) := by
  have hs := h.sound
  refine ⟨?_, ?_, ?_⟩
  · intro before item after hitems token htoken
    exact (hitems ▸ hs.announced.received).split token htoken
  · intro before token complete after hitems
    have hfinishes := finishes_split hitems
    have hmem : (token, complete) ∈ s.scan.shared.finishes := by
      rw [hfinishes]
      simp
    have hfinished := mem_map_of_mem (f := Prod.fst) hmem
    obtain ⟨honce, hentries, hbelow⟩ := hs.finish_behind hitems
    refine ⟨honce, hentries, hbelow, ?_⟩
    rw [hs.judged.complete_iff hs.blamed hs.counted hmem]
    constructor
    · rintro hclean other (rfl | hunder) hfault
      · exact hclean (faulty_of_mem hfault)
      · exact hclean ⟨other, hfault, hs.announced.below_of_under hunder⟩
    · rintro hclean ⟨other, hfault, hbelow⟩
      exact hclean other (hs.announced.under_of_below hs.counted hbelow hfinished) hfault
  · intro before after hitems
    obtain ⟨hnil, hfirst, hall⟩ := hs.ended_last hitems
    refine ⟨hnil, hfirst, hall 0 hs.counted.root, fun token htoken => hall token ?_⟩
    rcases mem_introductions htoken with rfl | ⟨entry, hentry, hchild⟩
    · exact hs.counted.root
    · have hmem : Item.entry entry ∈ s.scan.shared.items := by
        rw [hitems]
        exact mem_append_left _ hentry
      exact (hs.counted.parent token _ (hs.announced.sent entry hmem token hchild)).2

theorem reachable_file : ∃ s : System ⟨1, 1, 1⟩, s.Reachable ∧
    s.scan.shared.items = [.started, .entry ⟨0, none, .Complete⟩] := by
  have hopened := Reachable.step (t := none) .start (.scan rfl (.opened (l := ⟨1, 1, 1⟩) 0 .new))
  have hfile := hopened.step (t := none) (.scan rfl (.file 0 true .new))
  have hends := hfile.step (t := none) (.scan rfl (.streamEnds 0 true _))
  have hscanned := hends.step (t := none)
    (.scan rfl (.scanned 0 true _ (.flushing .popHeld) (.inr rfl) fun _ => rfl))
  have hsent := hscanned.step (t := none)
    (.scan rfl (.sendEntries .popHeld _ (cons_ne_nil _ _)))
  exact ⟨_, hsent, rfl⟩

theorem events_in_order_file : ∃ s : System ⟨1, 1, 1⟩,
    s.scan.shared.items = [.started, .entry ⟨0, none, .Complete⟩] ∧
    ∀ token ∈ (Item.entry ⟨0, none, .Complete⟩).names, token ∈ introductions [.started] := by
  obtain ⟨s, hreachable, hitems⟩ := reachable_file
  exact ⟨s, hitems, (events_in_order hreachable).1 [.started] _ [] hitems⟩

/-! ## Leaving -/

/-- Whatever the threads do, they do something until all have returned. -/
inductive Leaves : System l → Prop where
  | left {s : System l} (h : ∀ t, s.pool.pc t = .returned) : Leaves s
  | goes {s : System l}
      (hnext : ∃ t s', (s.pool.pc t).isWaiting = false ∧ Step s t s')
      (hall : ∀ t s', Step s t s' → Leaves s') : Leaves s

theorem closed_mono {s s' : Pool l DirectoryToken}
    (hclosed : s.queue.closed = true) (h : s.Step t a s') : s'.queue.closed = true := by
  cases h with
  | own h => exact h.closed_mono hclosed
  | _ => exact hclosed

/-- **A closed queue is left.** -/
theorem Sound.leaves (hs : s.Sound) (hclosed : s.pool.queue.closed = true) : s.Leaves := by
  generalize hsteps : s.pool.toGo = steps
  induction steps using Nat.strong_induction_on generalizing s with
  | _ steps ih =>
    by_cases hleft : ∀ t, s.pool.pc t = .returned
    · exact .left hleft
    · rw [not_forall] at hleft
      obtain ⟨t, pool, hwaits, hstep⟩ := hs.pool.goes_on hclosed hleft
      refine .goes ⟨t, _, hwaits, .queue hstep⟩ fun u s' h => ?_
      have hidle := (hs.pool.idle hclosed u).1
      cases h with
      | queue h =>
        apply ih _ _ (hs.step (.queue h)) (closed_mono hclosed h) rfl
        rw [← hsteps]
        exact hs.pool.toGo_lt hclosed h
      | scan hrun h =>
        rw [hrun] at hidle
        cases hidle
      | both ha hpool hscan =>
        cases hpool with
        | own h => exact absurd (h.tau_of_idle (by omega)) ha
        | _ => exact absurd rfl ha
      | ends ht hjoin h => exact absurd (hjoin) (not_forall.mpr hleft)

end System

end Ish.Scan
