import Ish.Scan.Worker
import Mathlib.Data.Finset.Card
import Mathlib.Data.Multiset.Count
import Mathlib.Data.Fintype.BigOperators

/-!
# Holds on directories

The counter of a directory counts the holds on it: that of its own scan, until
the release of it is through, and one of each directory below it that is not
finished yet. A directory is finished when its last hold is released, and then
once.
-/

namespace Ish.Scan

open Ish.Lib.Threads List

variable {l : Limits}

/-- The scans that a thread goes on with behind a flush. -/
def Resume.holds : Resume → List DirectoryToken
  | .scanning token _ => [token]
  | _ => []

/-- The directories a thread's work holds. A directory that is being finished
holds its parent. -/
def Work.holds (parent : DirectoryToken → Option DirectoryToken) : Work → List DirectoryToken
  | .start token | .scanning token _ | .scanned token _ => [token]
  | .flushing after | .sending after | .releasing after => after.holds
  | .pushing todo kept after => todo ++ kept ++ after.holds
  | .offered task todo kept after => task :: todo ++ kept ++ after.holds
  | .marking token _ after | .dropping token after => token :: after.holds
  | .finishing token after | .finished token _ after => (parent token).toList ++ after.holds
  | _ => []

/-- The directory a thread is finishing. -/
def Work.settles : Work → List DirectoryToken
  | .finishing token _ | .finished token _ _ => [token]
  | _ => []

def Local.holds (parent : DirectoryToken → Option DirectoryToken) (v : Local) :
    List DirectoryToken :=
  v.work.holds parent ++ v.outbox.held ++ v.outbox.releases.map Prod.fst

/-- The holds of all threads and of the queue on `token`. -/
def ScanContext.held (s : ScanContext l) (token : DirectoryToken) : Nat :=
  s.shared.published.count token +
    total (fun _ (v : Local) => (v.holds s.shared.progress.parent).count token) s.threads

/-- The directories below `token` that are not finished. -/
def Shared.children (g : Shared) (token : DirectoryToken) : Finset DirectoryToken :=
  (Finset.range g.next_token).filter fun child =>
    g.progress.parent child = some token ∧ 0 < g.progress.pending child

/-- The finishes that are sent. -/
def finishesOf : ScanEvent → List (DirectoryToken × Bool)
  | .DirectoriesFinished finishes => finishes
  | _ => []

/-- All finishes so far. -/
def Shared.finishes (g : Shared) : List (DirectoryToken × Bool) :=
  g.received.flatMap finishesOf ++ g.progress.pending_finishes

/-- How often `token` is finished, or about to be. -/
def ScanContext.settled (s : ScanContext l) (token : DirectoryToken) : Nat :=
  (s.shared.finishes.map Prod.fst).count token +
    total (fun _ (v : Local) => v.work.settles.count token) s.threads

/-- **What the table of directories says.** -/
structure ScanContext.Counted (s : ScanContext l) : Prop where
  pending : ∀ token : Nat, s.shared.progress.pending token =
    s.held token + (s.shared.children token).card
  settled : ∀ token : Nat, s.settled token =
    if token < s.shared.next_token ∧ s.shared.progress.pending token = 0 then 1 else 0
  parent : ∀ child parent : Nat, s.shared.progress.parent child = some parent →
    parent < child ∧ child < s.shared.next_token
  fresh : ∀ token : Nat, s.shared.next_token ≤ token → s.shared.progress.pending token = 0
  root : 0 < s.shared.next_token

variable {g g' : Shared} {t : Thread l} {v v' : Local} {a : Action DirectoryToken}

/-! ## The order of a flush -/

/-- What of its outbox a thread has dealt with. -/
def Local.Staged (v : Local) : Prop :=
  match v.work with
  | .flushing after => after = .done → v.outbox.held = []
  | .sending after => v.outbox.batch = [] ∧ (after = .done → v.outbox.held = [])
  | .pushing todo kept after => v.outbox.batch = [] ∧ v.outbox.notices = [] ∧ v.outbox.held = [] ∧
      (after = .done → todo = [] ∧ kept = [])
  | .offered _ _ _ after => v.outbox.batch = [] ∧ v.outbox.notices = [] ∧ v.outbox.held = [] ∧
      after ≠ .done
  | .releasing after | .marking _ _ after | .dropping _ after | .finishing _ after
  | .finished _ _ after => v.outbox.batch = [] ∧ v.outbox.notices = [] ∧
      (after = .done → v.outbox.held = [])
  | .done | .idle | .joining | .lastFlush | .lastSend | .gone =>
    v.outbox.batch = [] ∧ v.outbox.notices = [] ∧ v.outbox.held = [] ∧ v.outbox.releases = []
  | .start _ | .scanning _ _ | .scanned _ _ | .popHeld => True

theorem Scans.staged (hstage : v.Staged) (h : Scans g t v a g' v') : v'.Staged := by
  cases h with
  | reopenFailed token o w hw => rcases hw with rfl | rfl <;> simp [Local.Staged]
  | scanFailed token complete o w hw => rcases hw with rfl | rfl <;> simp [Local.Staged]
  | scanned token complete o w hw hroot => rcases hw with rfl | rfl <;> simp [Local.Staged]
  | released after o h => cases after <;> simp_all [Local.Staged, Resume.work]
  | finishDirectory token complete after o =>
    cases hparent : g.progress.parent token <;> simp_all [Local.Staged, afterFinish]
  | finish o => cases t <;> simp_all [Local.Staged, afterTree]
  | _ => simp_all [Local.Staged]

/-! ## What an operation does to the table -/

/-- An operation leaves the counts alone, registers a directory, or releases a
hold. -/
inductive TableStep (g : Shared) (v : Local) (g' : Shared) (v' : Local) : Prop where
  | quiet (hnext : g'.next_token = g.next_token)
      (hpending : g'.progress.pending = g.progress.pending)
      (hparent : g'.progress.parent = g.progress.parent)
      (hholds : ∀ token, (v'.holds g.progress.parent).count token + g'.published.count token =
        (v.holds g.progress.parent).count token + g.published.count token)
      (hsettles : ∀ token, (g'.finishes.map Prod.fst).count token + v'.work.settles.count token =
        (g.finishes.map Prod.fst).count token + v.work.settles.count token)
  | register (parent : DirectoryToken) (hmem : parent ∈ v.holds g.progress.parent)
      (hnext : g'.next_token = g.next_token + 1)
      (hprogress : g'.progress = g.progress.register_child parent g.next_token)
      (hpublished : g'.published = g.published) (hreceived : g'.received = g.received)
      (hholds : ∀ table (token : Nat), (v'.holds table).count token =
        (v.holds table).count token + if token = g.next_token then 1 else 0)
      (hsettles : v.work.settles = [] ∧ v'.work.settles = [])
  | last (token : DirectoryToken) (after : Resume) (o : Outbox) (hv : v = ⟨.dropping token after, o⟩)
      (hv' : v' = ⟨.finishing token after, o⟩) (h : g.progress.pending token = 1)
      (hg : g' = { g with progress := g.progress.drop token })
  | one (token : DirectoryToken) (after : Resume) (o : Outbox) (hv : v = ⟨.dropping token after, o⟩)
      (hv' : v' = ⟨.releasing after, o⟩) (h : g.progress.pending token ≠ 1)
      (hg : g' = { g with progress := g.progress.drop token })

theorem Resume.work_holds (after : Resume) (table : DirectoryToken → Option DirectoryToken) :
    after.work.holds table = after.holds ∧ after.work.settles = [] := by
  cases after <;> exact ⟨rfl, rfl⟩

theorem TableStep.of_holds (hnext : g'.next_token = g.next_token)
    (hprogress : g'.progress = g.progress) (hreceived : g'.received.flatMap finishesOf =
      g.received.flatMap finishesOf)
    (hholds : ∀ token, (v'.holds g.progress.parent).count token + g'.published.count token =
        (v.holds g.progress.parent).count token + g.published.count token)
    (hsettles : v'.work.settles = v.work.settles) : TableStep g v g' v' := by
  refine .quiet hnext (by rw [hprogress]) (by rw [hprogress]) hholds fun token => ?_
  rw [Shared.finishes, Shared.finishes, hprogress, hreceived, hsettles]

theorem finishes_push (g : Shared) (token : DirectoryToken) (complete : Bool) :
    Shared.finishes { g with
      progress := (g.progress.push_finished token complete).1
      received := g.received ++ (g.progress.push_finished token complete).2 } =
      g.finishes ++ [(token, complete)] := by
  simp only [Shared.finishes, ScanProgress.push_finished]
  split
  · simp
  · simp [finishesOf]

open ScanProgress in
theorem Scans.table (hstage : v.Staged) (h : Scans g t v a g' v') : TableStep g v g' v' := by
  cases h with
  | directory token complete o h =>
    refine .register token (by simp [Local.holds, Work.holds]) rfl rfl rfl rfl ?_ ⟨rfl, rfl⟩
    intro table other
    simp only [Local.holds, Work.holds, count_append, count_singleton, beq_iff_eq,
      eq_comm (a := other)]
    omega
  | dropLast token after o h => exact .last token after o rfl rfl h rfl
  | dropOne token after o h => exact .one token after o rfl rfl h rfl
  | begin task left o h =>
    refine .of_holds rfl rfl rfl (fun token => ?_) rfl
    simp only [Local.holds, Work.holds, h, Multiset.count_cons, count_append,
      count_singleton, count_nil, beq_iff_eq, eq_comm (a := token)]
    omega
  | opened token o => exact .of_holds rfl rfl rfl (fun _ => rfl) rfl
  | reopenFailed token o w hw =>
    rcases hw with rfl | rfl
    all_goals
      refine .of_holds rfl rfl rfl (fun other => ?_) rfl
      simp only [Local.holds, Work.holds, Resume.holds, Outbox.failed_task, map_append,
        map_cons, map_nil, count_append, count_nil]
      omega
  | reopenExcluded token o =>
    refine .of_holds rfl rfl rfl (fun other => ?_) rfl
    simp only [Local.holds, Work.holds, map_append, map_cons, map_nil,
      count_append, count_nil]
    omega
  | file token complete o | faulty token complete o state h | flushEntries token complete o
    | streamFailed token complete o =>
    exact .of_holds rfl rfl rfl (fun _ => rfl) rfl
  | scanFailed token complete o w hw => 
    rcases hw with rfl | rfl
    all_goals
      refine .of_holds rfl rfl rfl (fun other => ?_) rfl
      simp only [Local.holds, Work.holds, Resume.holds, Outbox.failed_task, map_append,
        map_cons, map_nil, count_append, count_nil]
      omega
  | streamEnds token complete o => exact .of_holds rfl rfl rfl (fun _ => rfl) rfl
  | scanned token complete o w hw hroot =>
    rcases hw with rfl | rfl
    all_goals
      refine .of_holds rfl rfl rfl (fun other => ?_) rfl
      simp only [Local.holds, Work.holds, Resume.holds, map_append, map_cons,
        map_nil, count_append, count_nil]
      omega
  | pop task held o h =>
    refine .of_holds rfl rfl rfl (fun other => ?_) rfl
    simp only [Local.holds, Work.holds, h, count_append, count_nil]
    omega
  | popNone o h | sendNoEntries after o h => exact .of_holds rfl rfl rfl (fun _ => rfl) rfl
  | sendEntries after o h | sendNotice after o notice notices h =>
    refine .of_holds rfl rfl ?_ (fun _ => rfl) rfl
    simp [finishesOf]
  | drainHeld after o h =>
    refine .of_holds rfl rfl rfl (fun other => ?_) rfl
    simp only [Local.holds, Work.holds, count_append, count_nil]
    omega
  | offer task todo kept after o => exact .of_holds rfl rfl rfl (fun _ => rfl) rfl
  | refuse task todo kept after o =>
    refine .of_holds rfl rfl rfl (fun other => ?_) rfl
    simp only [Local.holds, Work.holds, cons_append, count_append, count_cons,
      count_nil]
    omega
  | publish task todo kept after o =>
    refine .of_holds rfl rfl rfl (fun other => ?_) rfl
    simp only [Local.holds, Work.holds, cons_append, count_append, count_cons,
      Multiset.count_cons, beq_iff_eq, eq_comm (a := other)]
    omega
  | pushed kept after o =>
    have hnone : o.held = [] := hstage.2.2.1
    refine .of_holds rfl rfl rfl (fun other => ?_) rfl
    simp only [Local.holds, Work.holds, hnone, nil_append, count_append, count_nil]
    omega
  | release after o token complete releases h =>
    refine .of_holds rfl rfl rfl (fun other => ?_) rfl
    simp only [Local.holds, Work.holds, h, map_cons, count_append, count_cons]
    omega
  | released after o h =>
    refine .of_holds rfl rfl rfl (fun other => ?_) (after.work_holds fun _ => none).2
    rw [Local.holds, Local.holds, (after.work_holds _).1]
    rfl
  | mark token complete after o =>
    refine .quiet rfl (mark_pending ..) (mark_parent ..) (fun _ => rfl) fun other => ?_
    rw [Shared.finishes, Shared.finishes, mark_pending_finishes]
    rfl
  | load token after o => exact .of_holds rfl rfl rfl (fun _ => rfl) rfl
  | finishDirectory token complete after o =>
    refine .quiet rfl (push_finished_pending ..) (push_finished_parent ..) (fun other => ?_)
      fun other => ?_
    · cases hparent : g.progress.parent token <;>
        simp only [Local.holds, Work.holds, afterFinish, hparent, Option.toList, nil_append,
          cons_append]
    · rw [finishes_push]
      have hnone : (afterFinish g.progress token complete after).settles = [] := by
        cases hparent : g.progress.parent token <;> simp only [afterFinish, hparent, Work.settles]
      rw [hnone, map_append, count_append]
      rfl
  | finish o => cases t <;> exact .of_holds rfl rfl rfl (fun _ => rfl) rfl

/-! ## One step -/

variable {s : ScanContext l}

theorem held_goto (s : ScanContext l) (t : Thread l) (g' : Shared) (v' : Local) (token : Nat)
    (htable : ∀ u, ((s.threads u).holds g'.progress.parent).count token =
      ((s.threads u).holds s.shared.progress.parent).count token) :
    (s.goto t g' v').held token + s.shared.published.count token +
        ((s.threads t).holds s.shared.progress.parent).count token =
      s.held token + g'.published.count token + (v'.holds g'.progress.parent).count token := by
  have hmove := total_update
    (fun _ (v : Local) => (v.holds g'.progress.parent).count token) s.threads t v'
  have hsame : total (fun _ (v : Local) => (v.holds g'.progress.parent).count token) s.threads =
      total (fun _ (v : Local) => (v.holds s.shared.progress.parent).count token) s.threads :=
    Finset.sum_congr rfl fun u _ => htable u
  have hown := htable t
  simp only [ScanContext.held, ScanContext.goto]
  omega

theorem settled_goto (s : ScanContext l) (t : Thread l) (g' : Shared) (v' : Local) (token : Nat) :
    (s.goto t g' v').settled token + (s.shared.finishes.map Prod.fst).count token +
        (s.threads t).work.settles.count token =
      s.settled token + (g'.finishes.map Prod.fst).count token + v'.work.settles.count token := by
  have hmove := total_update (fun _ (v : Local) => v.work.settles.count token) s.threads t v'
  simp only [ScanContext.settled, ScanContext.goto]
  omega

variable {token : Nat}

theorem ScanContext.Counted.of_held (hs : s.Counted)
    (h : 0 < s.held token) : token < s.shared.next_token ∧ 0 < s.shared.progress.pending token := by
  have hpending := hs.pending token
  refine ⟨Nat.lt_of_not_le fun hfresh => ?_, by omega⟩
  have hzero := hs.fresh token hfresh
  omega

theorem ScanContext.Counted.of_mem (hs : s.Counted)
    (h : token ∈ (s.threads t).holds s.shared.progress.parent) :
    token < s.shared.next_token ∧ 0 < s.shared.progress.pending token := by
  apply hs.of_held
  have hcount : 0 < ((s.threads t).holds s.shared.progress.parent).count token :=
    count_pos_iff.mpr h
  have hle := le_total
    (fun _ (v : Local) => (v.holds s.shared.progress.parent).count token) s.threads t
  rw [ScanContext.held]
  omega

/-- A directory that is finished, or about to be, has no holds left. -/
theorem ScanContext.Counted.of_settles (hs : s.Counted) (h : token ∈ (s.threads t).work.settles) :
    token < s.shared.next_token ∧ s.shared.progress.pending token = 0 := by
  have hcount : 0 < (s.threads t).work.settles.count token := count_pos_iff.mpr h
  have hle := le_total (fun _ (v : Local) => v.work.settles.count token) s.threads t
  have hsettled := hs.settled token
  by_contra hnot
  rw [if_neg hnot, ScanContext.settled] at hsettled
  omega

theorem Work.holds_congr {table table'} {w : Work}
    (h : ∀ token ∈ w.settles, table' token = table token) : w.holds table' = w.holds table := by
  cases w with
  | finishing token after | finished token complete after =>
    simp only [Work.holds, h token (by simp [Work.settles])]
  | _ => rfl

theorem Local.holds_congr {table table'} {v : Local}
    (h : ∀ token ∈ v.work.settles, table' token = table token) : v.holds table' = v.holds table := by
  rw [Local.holds, Local.holds, Work.holds_congr h]

/-- The same directories below `token` are unfinished. -/
theorem children_congr (hnext : g'.next_token = g.next_token)
    (hparent : g'.progress.parent = g.progress.parent)
    (h : ∀ child, g.progress.parent child = some token →
      (0 < g'.progress.pending child ↔ 0 < g.progress.pending child)) :
    g'.children token = g.children token := by
  ext child
  simp only [Shared.children, Finset.mem_filter, hnext, hparent]
  constructor
  · rintro ⟨hlt, hchild, hpending⟩
    exact ⟨hlt, hchild, (h child hchild).mp hpending⟩
  · rintro ⟨hlt, hchild, hpending⟩
    exact ⟨hlt, hchild, (h child hchild).mpr hpending⟩

theorem ScanContext.Counted.quiet (hs : s.Counted) (hnext : g'.next_token = s.shared.next_token)
    (hpending : g'.progress.pending = s.shared.progress.pending)
    (hparent : g'.progress.parent = s.shared.progress.parent)
    (hholds : ∀ token, (v'.holds s.shared.progress.parent).count token + g'.published.count token =
      ((s.threads t).holds s.shared.progress.parent).count token +
        s.shared.published.count token)
    (hsettles : ∀ token, (g'.finishes.map Prod.fst).count token + v'.work.settles.count token =
      (s.shared.finishes.map Prod.fst).count token + (s.threads t).work.settles.count token) :
    (s.goto t g' v').Counted where
  pending token := by
    have hheld := held_goto s t g' v' token (by simp only [hparent, implies_true])
    have hsame := hholds token
    have hchildren : g'.children token = s.shared.children token :=
      children_congr hnext hparent fun _ _ => by rw [hpending]
    have hbefore := hs.pending token
    rw [hparent] at hheld
    show g'.progress.pending token = _ + (g'.children token).card
    rw [hpending, hchildren]
    omega
  settled token := by
    have hsettled := settled_goto s t g' v' token
    have hsame := hsettles token
    have hbefore := hs.settled token
    show _ = if token < g'.next_token ∧ g'.progress.pending token = 0 then 1 else 0
    rw [hnext, hpending, ← hbefore]
    omega
  parent child parent h := by
    have hchild : s.shared.progress.parent child = some parent := by rw [← hparent]; exact h
    show parent < child ∧ child < g'.next_token
    rw [hnext]
    exact hs.parent child parent hchild
  fresh token h := by
    show g'.progress.pending token = 0
    rw [hpending]
    exact hs.fresh token (hnext ▸ h)
  root := by
    show 0 < g'.next_token
    rw [hnext]
    exact hs.root

theorem register_pending (p : ScanProgress) {parent child : Nat} (h : parent ≠ child)
    (token : Nat) : (p.register_child parent child).pending token =
      if token = parent then p.pending parent + 1 else if token = child then 1
        else p.pending token := by
  simp only [ScanProgress.register_child, Function.update_apply, if_neg h]

theorem ScanContext.Counted.register (hs : s.Counted) (parent : Nat)
    (hmem : parent ∈ (s.threads t).holds s.shared.progress.parent)
    (hnext : g'.next_token = s.shared.next_token + 1)
    (hprogress : g'.progress = s.shared.progress.register_child parent s.shared.next_token)
    (hpublished : g'.published = s.shared.published) (hreceived : g'.received = s.shared.received)
    (hholds : ∀ table (token : Nat), (v'.holds table).count token =
      ((s.threads t).holds table).count token + if token = s.shared.next_token then 1 else 0)
    (hsettles : (s.threads t).work.settles = [] ∧ v'.work.settles = []) :
    (s.goto t g' v').Counted := by
  obtain ⟨hlt, hpositive⟩ := hs.of_mem hmem
  have hne : parent ≠ s.shared.next_token := Nat.ne_of_lt hlt
  have hpending : ∀ token : Nat, g'.progress.pending token =
      if token = parent then s.shared.progress.pending parent + 1
        else if token = s.shared.next_token then 1 else s.shared.progress.pending token := by
    intro token
    rw [hprogress]
    exact register_pending _ hne token
  have hparent : ∀ token : Nat, g'.progress.parent token =
      if token = s.shared.next_token then some parent else s.shared.progress.parent token := by
    intro token
    rw [hprogress]
    exact Function.update_apply ..
  have hfresh := hs.fresh s.shared.next_token (Nat.le_refl _)
  -- nobody is finishing the directory that is new
  have htable : ∀ u, (s.threads u).holds g'.progress.parent =
      (s.threads u).holds s.shared.progress.parent := by
    intro u
    apply Local.holds_congr
    intro token htoken
    rw [hparent, if_neg (Nat.ne_of_lt (hs.of_settles htoken).1)]
  have hchildren : ∀ token : Nat, (g'.children token).card =
      (s.shared.children token).card + if token = parent then 1 else 0 := by
    intro token
    have hnotin : s.shared.next_token ∉ s.shared.children token := by
      simp [Shared.children]
    split
    · rename_i htoken
      subst htoken
      rw [← Finset.card_insert_of_notMem hnotin]
      congr 1
      ext (child : Nat)
      simp only [Shared.children, Finset.mem_filter, Finset.mem_range, Finset.mem_insert, hnext,
        hparent, hpending]
      by_cases hchild : child = s.shared.next_token
      · simp [hchild, hne.symm]
      · by_cases hself : child = token
        · simp [hself, hne, hpositive, hlt, Nat.lt_succ_of_lt hlt]
        · simp only [hchild, hself, if_false, false_or]
          refine and_congr_left fun _ => ?_
          omega
    · rename_i htoken
      rw [Nat.add_zero]
      congr 1
      ext (child : Nat)
      simp only [Shared.children, Finset.mem_filter, Finset.mem_range, hnext, hparent, hpending]
      by_cases hchild : child = s.shared.next_token
      · simp [hchild, Ne.symm htoken]
      · by_cases hself : child = parent
        · simp [hself, hne, hpositive, hlt, Nat.lt_succ_of_lt hlt]
        · simp only [hchild, hself, if_false]
          refine and_congr_left fun _ => ?_
          omega
  constructor
  case pending =>
    intro token
    have hheld := held_goto s t g' v' token fun u => by rw [htable]
    have hsame := hholds g'.progress.parent token
    have hbefore := hs.pending token
    have hbelow := hchildren token
    rw [htable] at hsame
    rw [hpublished] at hheld
    show g'.progress.pending token = _ + (g'.children token).card
    rw [hpending]
    by_cases hparent' : token = parent
    · subst hparent'
      rw [if_pos rfl] at hbelow ⊢
      rw [if_neg hne] at hsame
      omega
    · rw [if_neg hparent'] at hbelow ⊢
      by_cases hnew : token = s.shared.next_token
      · subst hnew
        rw [if_pos rfl] at hsame ⊢
        omega
      · rw [if_neg hnew] at hsame ⊢
        omega
  case settled =>
    intro token
    have hsettled := settled_goto s t g' v' token
    have hbefore := hs.settled token
    have hfinishes : g'.finishes = s.shared.finishes := by
      rw [Shared.finishes, Shared.finishes, hreceived, hprogress]
      rfl
    rw [hsettles.1, hsettles.2, hfinishes] at hsettled
    show _ = if token < g'.next_token ∧ g'.progress.pending token = 0 then 1 else 0
    rw [show (s.goto t g' v').settled token = s.settled token by omega, hbefore, hnext, hpending]
    by_cases hparent' : token = parent
    · subst hparent'
      rw [if_pos rfl, if_neg (by omega), if_neg (by omega)]
    · rw [if_neg hparent']
      by_cases hnew : token = s.shared.next_token
      · rw [if_pos hnew, if_neg (by omega), if_neg (by omega)]
      · rw [if_neg hnew]
        refine if_congr (and_congr_left fun _ => ?_) rfl rfl
        omega
  case parent =>
    intro child above h
    replace h : g'.progress.parent child = some above := h
    show above < child ∧ child < g'.next_token
    rw [hparent] at h
    rw [hnext]
    split at h
    · rename_i hchild
      cases h
      omega
    · have hbefore := hs.parent child above h
      omega
  case fresh =>
    intro token h
    replace h : g'.next_token ≤ token := h
    show g'.progress.pending token = 0
    rw [hpending, if_neg (by omega), if_neg (by omega)]
    exact hs.fresh token (by omega)
  case root =>
    show 0 < g'.next_token
    omega

theorem drop_changes (hg : g' = { g with progress := g.progress.drop token }) :
    (g'.next_token = g.next_token ∧ g'.progress.parent = g.progress.parent ∧
      g'.published = g.published ∧ g'.finishes = g.finishes) ∧
    ∀ other : Nat, g'.progress.pending other =
      g.progress.pending other - if other = token then 1 else 0 := by
  subst hg
  refine ⟨⟨rfl, rfl, rfl, rfl⟩, fun other => ?_⟩
  simp only [ScanProgress.drop, Function.update_apply]
  split
  · rename_i h
    rw [h]
  · rfl

theorem ScanContext.Counted.last (hs : s.Counted) {after o}
    (hv : s.threads t = ⟨.dropping token after, o⟩) (hv' : v' = ⟨.finishing token after, o⟩)
    (h : s.shared.progress.pending token = 1)
    (hg : g' = { s.shared with progress := s.shared.progress.drop token }) :
    (s.goto t g' v').Counted := by
  obtain ⟨⟨hnext, hparent, hpublished, hfinishes⟩, hpending⟩ := drop_changes hg
  clear hg
  have hlt : token < s.shared.next_token := by
    by_contra hfresh
    have hzero := hs.fresh token (Nat.le_of_not_lt hfresh)
    omega
  have hchildren : ∀ other : Nat, (g'.children other).card +
        (if s.shared.progress.parent token = some other then 1 else 0) =
      (s.shared.children other).card := by
    intro other
    split
    · rename_i hup
      have hmem : token ∈ s.shared.children other := by
        simp [Shared.children, hlt, hup, h]
      rw [← Finset.card_erase_add_one hmem]
      congr 2
      ext (child : Nat)
      simp only [Shared.children, Finset.mem_filter, Finset.mem_erase, hnext, hparent, hpending]
      by_cases hchild : child = token
      · simp [hchild, h]
      · simp [hchild]
    · rename_i hup
      rw [Nat.add_zero]
      congr 1
      apply children_congr hnext hparent
      intro child hchild
      rw [hpending, if_neg, Nat.sub_zero]
      rintro rfl
      exact hup hchild
  constructor
  case pending =>
    intro other
    have hheld := held_goto s t g' v' other fun _ => by rw [hparent]
    have hbefore := hs.pending other
    have hbelow := hchildren other
    have hup : (s.shared.progress.parent token).toList.count other =
        if s.shared.progress.parent token = some other then 1 else 0 := by
      cases s.shared.progress.parent token <;> simp [count_singleton]
    rw [hv, hv', hparent, hpublished] at hheld
    simp only [Local.holds, Work.holds, count_append, count_cons, beq_iff_eq, hup]
      at hheld
    show g'.progress.pending other = _ + (g'.children other).card
    rw [hpending]
    by_cases hself : token = other
    · subst hself
      simp only [if_true] at hheld ⊢
      rw [hv']
      omega
    · simp only [if_neg hself, if_neg (Ne.symm hself)] at hheld ⊢
      rw [hv']
      omega
  case settled =>
    intro other
    have hsettled := settled_goto s t g' v' other
    have hbefore := hs.settled other
    rw [hv, hv', hfinishes] at hsettled
    simp only [Work.settles, count_nil, count_singleton, beq_iff_eq] at hsettled
    show _ = if other < g'.next_token ∧ g'.progress.pending other = 0 then 1 else 0
    rw [hnext, hpending, hv']
    by_cases hself : token = other
    · subst hself
      rw [if_pos rfl] at hsettled
      rw [if_neg (by omega)] at hbefore
      rw [if_pos rfl, if_pos (by omega)]
      omega
    · rw [if_neg hself] at hsettled
      rw [if_neg (Ne.symm hself), Nat.sub_zero, ← hbefore]
      omega
  case parent =>
    intro child above hchild
    have hbefore := hs.parent child above (hparent ▸ hchild)
    show above < child ∧ child < g'.next_token
    rwa [hnext]
  case fresh =>
    intro other hfresh
    have hbefore := hs.fresh other (hnext ▸ hfresh)
    show g'.progress.pending other = 0
    rw [hpending, hbefore, Nat.zero_sub]
  case root =>
    show 0 < g'.next_token
    rw [hnext]
    exact hs.root

theorem ScanContext.Counted.one (hs : s.Counted) {after o}
    (hv : s.threads t = ⟨.dropping token after, o⟩) (hv' : v' = ⟨.releasing after, o⟩)
    (h : s.shared.progress.pending token ≠ 1)
    (hg : g' = { s.shared with progress := s.shared.progress.drop token }) :
    (s.goto t g' v').Counted := by
  obtain ⟨⟨hnext, hparent, hpublished, hfinishes⟩, hpending⟩ := drop_changes hg
  clear hg
  have hmore : 1 < s.shared.progress.pending token := by
    have hheld : 0 < s.shared.progress.pending token :=
      (hs.of_mem (t := t) (by rw [hv]; simp [Local.holds, Work.holds])).2
    omega
  have hzero : ∀ other : Nat,
      g'.progress.pending other = 0 ↔ s.shared.progress.pending other = 0 := by
    intro other
    rw [hpending]
    split
    · rename_i hself
      rw [hself]
      omega
    · rw [Nat.sub_zero]
  constructor
  case pending =>
    intro other
    have hheld := held_goto s t g' v' other fun _ => by rw [hparent]
    have hbefore := hs.pending other
    have hbelow : g'.children other = s.shared.children other := by
      apply children_congr hnext hparent
      intro child _
      rw [Nat.pos_iff_ne_zero, Nat.pos_iff_ne_zero]
      exact not_congr (hzero child)
    rw [hv, hv', hparent, hpublished] at hheld
    simp only [Local.holds, Work.holds, count_append, count_cons, beq_iff_eq] at hheld
    show g'.progress.pending other = _ + (g'.children other).card
    rw [hpending, hbelow, hv']
    by_cases hself : token = other
    · subst hself
      simp only [if_true] at hheld ⊢
      omega
    · simp only [if_neg hself, if_neg (Ne.symm hself)] at hheld ⊢
      omega
  case settled =>
    intro other
    have hsettled := settled_goto s t g' v' other
    have hbefore := hs.settled other
    rw [hv, hv', hfinishes] at hsettled
    simp only [Work.settles, count_nil] at hsettled
    show _ = if other < g'.next_token ∧ g'.progress.pending other = 0 then 1 else 0
    simp only [hzero, hnext, ← hbefore, hv']
    omega
  case parent =>
    intro child above hchild
    have hbefore := hs.parent child above (hparent ▸ hchild)
    show above < child ∧ child < g'.next_token
    rwa [hnext]
  case fresh =>
    intro other hfresh
    exact (hzero other).mpr (hs.fresh other (hnext ▸ hfresh))
  case root =>
    show 0 < g'.next_token
    rw [hnext]
    exact hs.root

/-- **An operation keeps the counts.** -/
theorem ScanContext.Counted.goto (hs : s.Counted) (hstage : (s.threads t).Staged)
    (h : Scans s.shared t (s.threads t) a g' v') : (s.goto t g' v').Counted := by
  rcases h.table hstage with
    ⟨hnext, hpending, hparent, hholds, hsettles⟩ |
    ⟨parent, hmem, hnext, hprogress, hpublished, hreceived, hholds, hsettles⟩ |
    ⟨token, after, o, hv, hv', hlast, hg⟩ | ⟨token, after, o, hv, hv', hmore, hg⟩
  · exact hs.quiet hnext hpending hparent hholds hsettles
  · exact hs.register parent hmem hnext hprogress hpublished hreceived hholds hsettles
  · exact hs.last hv hv' hlast hg
  · exact hs.one hv hv' hmore hg

end Ish.Scan
