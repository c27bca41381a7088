import Ish.Scan.Events

/-!
# The order of the finishes

The entries of a directory are sent before it is finished, and it is finished
behind the directories below it.
-/

namespace Ish.Scan

open Ish.Lib.Threads List

variable {l : Limits} {g g' : Shared} {t : Thread l} {v v' : Local} {a : Action DirectoryToken}
  {s : ScanContext l}

/-- `b` is no entry of a directory that `a` finishes. -/
def NotLate (a b : Item) : Prop :=
  ∀ token complete entry, a = .finish token complete → b = .entry entry → entry.parent ≠ token

theorem pairwise_append_of_no_entry {items sent : List Item} (hitems : items.Pairwise NotLate)
    (hsent : ∀ entry, Item.entry entry ∉ sent) : (items ++ sent).Pairwise NotLate := by
  have hnever : ∀ first, ∀ second ∈ sent, NotLate first second := by
    rintro first second hsecond token complete entry - rfl
    exact absurd hsecond (hsent entry)
  rw [pairwise_append]
  refine ⟨hitems, ?_, fun first _ => hnever first⟩
  exact List.Pairwise.imp_of_mem (fun _ hsecond _ => hnever _ _ hsecond)
    (pairwise_of_forall (R := fun _ _ => True) fun _ _ => trivial)

structure ScanContext.Ordered (s : ScanContext l) : Prop where
  /-- A thread holds the directories of the entries it has not sent. -/
  owned : ∀ t, ∀ entry ∈ (s.threads t).outbox.batch,
    entry.parent ∈ (s.threads t).holds s.shared.progress.parent
  entries : s.shared.items.Pairwise NotLate
  below : ∀ before finish after, s.shared.finishes = before ++ finish :: after →
    ∀ child, s.shared.progress.parent child = some finish.1 → child ∈ before.map Prod.fst

/-! ## What an operation sends -/

theorem Scans.sends (h : Scans g t v a g' v') : ∃ sent, g'.items = g.items ++ sent ∧
    ((∀ entry, Item.entry entry ∉ sent) ∨ sent = v.entries) := by
  cases h with
  | sendEntries after o h =>
    refine ⟨_, items_append .., .inr ?_⟩
    simp [ScanEvent.items, Local.entries]
  | sendNotice after o notice notices h =>
    refine ⟨_, items_append .., .inl ?_⟩
    simp [ScanEvent.items]
  | finishDirectory token complete after o =>
    refine ⟨_, items_append { g with
      progress := (g.progress.push_finished token complete).1 } _, .inl fun entry hentry => ?_⟩
    obtain ⟨finish, -, hsame⟩ := (push_finished_mem g.progress token complete).2 _ hentry
    cases hsame
  | _ => exact ⟨[], (append_nil _).symm, .inl fun _ => not_mem_nil⟩

theorem Scans.finishes (h : Scans g t v a g' v') : g'.finishes = g.finishes ∨
    ∃ token complete after o, v = ⟨.finished token complete after, o⟩ ∧
      g'.finishes = g.finishes ++ [(token, complete)] := by
  cases h with
  | sendEntries after o h =>
    left
    simp [Shared.finishes, finishesOf]
  | sendNotice after o notice notices h =>
    left
    simp [Shared.finishes, finishesOf]
  | mark token complete after o =>
    left
    rw [Shared.finishes, Shared.finishes, ScanProgress.mark_pending_finishes]
  | finishDirectory token complete after o =>
    exact .inr ⟨token, complete, after, o, rfl, finishes_push ..⟩
  | _ => exact .inl rfl

theorem Scans.parent_of_ne (hstage : v.Staged) (h : Scans g t v a g' v') {child}
    (hne : child ≠ g.next_token) : g'.progress.parent child = g.progress.parent child := by
  rcases h.table hstage with ⟨-, -, hparent, -, -⟩ | ⟨parent, -, -, hprogress, -, -, -, -⟩ |
    ⟨token, after, o, -, -, -, hg⟩ | ⟨token, after, o, -, -, -, hg⟩
  · rw [hparent]
  · rw [hprogress]
    exact Function.update_of_ne hne ..
  · rw [hg]
    rfl
  · rw [hg]
    rfl

theorem Scans.parent_cases (hstage : v.Staged) (h : Scans g t v a g' v')
    {child parent} (hparent : g'.progress.parent child = some parent) :
    g.progress.parent child = some parent ∨ parent ∈ v.holds g.progress.parent := by
  rcases h.table hstage with ⟨-, -, hsame, -, -⟩ | ⟨above, hmem, -, hprogress, -, -, -, -⟩ |
    ⟨token, after, o, -, -, -, hg⟩ | ⟨token, after, o, -, -, -, hg⟩
  · rw [hsame] at hparent
    exact .inl hparent
  · have hupdate : g'.progress.parent child =
        if child = g.next_token then some above else g.progress.parent child := by
      rw [hprogress]
      exact Function.update_apply ..
    rw [hupdate] at hparent
    split at hparent
    · cases hparent
      exact .inr hmem
    · exact .inl hparent
  · rw [hg] at hparent
    exact .inl hparent
  · rw [hg] at hparent
    exact .inl hparent

theorem ScanContext.Counted.holds_eq (hs : s.Counted) (hstage : (s.threads t).Staged)
    (h : Scans s.shared t (s.threads t) a g' v') (u : Thread l) :
    (s.threads u).holds g'.progress.parent = (s.threads u).holds s.shared.progress.parent := by
  apply Local.holds_congr
  intro token htoken
  exact h.parent_of_ne hstage (Nat.ne_of_lt (hs.of_settles htoken).1)

/-- A thread keeps the directories of its entries. -/
theorem Scans.owned (hstage : v.Staged) (h : Scans g t v a g' v')
    (howned : ∀ entry ∈ v.outbox.batch, entry.parent ∈ v.holds g.progress.parent) :
    ∀ entry ∈ v'.outbox.batch, entry.parent ∈ v'.holds g'.progress.parent := by
  cases h with
  | file token complete o | faulty token complete o state h | directory token complete o h =>
    intro entry hentry
    rcases mem_append.mp hentry with hold | hnew
    · have hheld := howned entry hold
      simp only [Local.holds, Work.holds, mem_append, mem_singleton] at hheld ⊢
      tauto
    · rw [mem_singleton.mp hnew]
      simp [Local.holds, Work.holds]
  | reopenFailed token o w hw | scanFailed token complete o w hw =>
    rcases hw with rfl | rfl
    all_goals
      intro entry hentry
      have hheld := howned entry hentry
      simp [Local.holds, Work.holds, Resume.holds, Outbox.failed_task] at hheld ⊢
      tauto
  | reopenExcluded token o =>
    intro entry hentry
    have hheld := howned entry hentry
    simp [Local.holds, Work.holds] at hheld ⊢
    tauto
  | scanned token complete o w hw hroot =>
    rcases hw with rfl | rfl
    all_goals
      intro entry hentry
      have hheld := howned entry hentry
      simp [Local.holds, Work.holds, Resume.holds] at hheld ⊢
      tauto
  | pop task held o h =>
    intro entry hentry
    have hheld := howned entry hentry
    simp [Local.holds, Work.holds, h] at hheld ⊢
    tauto
  | begin task left o h | popNone o h | opened token o | flushEntries token complete o
  | streamFailed token complete o | streamEnds token complete o =>
    intro entry hentry
    have hheld := howned entry hentry
    simp [Local.holds, Work.holds, Resume.holds] at hheld ⊢
    tauto
  | sendNoEntries after o h =>
    intro entry hentry
    rw [h] at hentry
    cases hentry
  | sendEntries after o h => rintro _ ⟨⟩
  | released after o h | finish o | sendNotice after o notice notices h
  | drainHeld after o h | offer task todo kept after o | refuse task todo kept after o
  | publish task todo kept after o | pushed kept after o | release after o token complete releases h
  | mark token complete after o | dropLast token after o h | dropOne token after o h
  | load token after o | finishDirectory token complete after o =>
    -- the entries are sent
    intro entry hentry
    have hbatch : o.batch = [] := hstage.1
    rw [hbatch] at hentry
    cases hentry

theorem mem_finishes {g : Shared} {token complete}
    (h : Item.finish token complete ∈ g.items) : (token, complete) ∈ g.finishes := by
  obtain ⟨event, hevent, hitem⟩ := mem_flatMap.mp h
  apply mem_append_left
  rw [mem_flatMap]
  refine ⟨event, hevent, ?_⟩
  cases event with
  | DirectoriesFinished finishes =>
    obtain ⟨finish, hfinish, hsame⟩ := mem_map.mp hitem
    cases hsame
    exact hfinish
  | _ => simp [ScanEvent.items] at hitem

theorem ScanContext.Counted.of_finished (hs : s.Counted) {token : Nat}
    (h : token ∈ s.shared.finishes.map Prod.fst) :
    token < s.shared.next_token ∧ s.shared.progress.pending token = 0 := by
  have hcount : 0 < (s.shared.finishes.map Prod.fst).count token := count_pos_iff.mpr h
  have hsettled := hs.settled token
  by_contra hnot
  rw [if_neg hnot, ScanContext.settled] at hsettled
  omega

theorem ScanContext.Counted.not_settles (hs : s.Counted) {token}
    (h : token ∈ s.shared.finishes.map Prod.fst) : ¬ ∃ t, token ∈ (s.threads t).work.settles := by
  rintro ⟨u, hu⟩
  have hcount : 0 < (s.shared.finishes.map Prod.fst).count token := count_pos_iff.mpr h
  have hagain : 0 < (s.threads u).work.settles.count token := count_pos_iff.mpr hu
  have hle := le_total (fun _ (v : Local) => v.work.settles.count token) s.threads u
  have hsettled := hs.settled token
  rw [if_pos (hs.of_finished h), ScanContext.settled] at hsettled
  omega

theorem ScanContext.Counted.children_finished (hs : s.Counted) {token child : Nat}
    (hzero : s.shared.progress.pending token = 0)
    (hchild : s.shared.progress.parent child = some token) :
    child ∈ s.shared.finishes.map Prod.fst := by
  have hcard := hs.pending token
  have hlt := (hs.parent child token hchild).2
  have hnone : s.shared.children token = ∅ := Finset.card_eq_zero.mp (by omega)
  have hdone : s.shared.progress.pending child = 0 := by
    by_contra hmore
    have hmem : child ∈ s.shared.children token := by
      simp [Shared.children, hlt, hchild, Nat.pos_of_ne_zero hmore]
    rw [hnone] at hmem
    exact Finset.notMem_empty child hmem
  have hsettled := hs.settled child
  rw [if_pos ⟨hlt, hdone⟩, ScanContext.settled] at hsettled
  rw [← count_pos_iff]
  by_contra hnot
  -- a thread that finishes the child holds its parent
  obtain ⟨u, hu⟩ := exists_of_total
    (show 0 < total (fun _ (v : Local) => v.work.settles.count child) s.threads by omega)
  have hmem : token ∈ (s.threads u).holds s.shared.progress.parent := by
    have hsettles := count_pos_iff.mp hu
    generalize s.threads u = v at hsettles
    obtain ⟨w, o⟩ := v
    cases w with
    | finishing other after | finished other complete after =>
      rw [← mem_singleton.mp hsettles, Local.holds, Work.holds, hchild]
      simp
    | _ => cases hsettles
  have hpositive := (hs.of_mem hmem).2
  omega

theorem ScanContext.Ordered.goto (hs : s.Ordered) (hcount : s.Counted)
    (hstage : (s.threads t).Staged) (h : Scans s.shared t (s.threads t) a g' v') :
    (s.goto t g' v').Ordered := by
  constructor
  case owned =>
    intro u
    by_cases hu : u = t
    · rw [hu, s.goto_self]
      exact h.owned hstage (hs.owned t)
    · rw [s.goto_of_ne _ _ hu]
      show ∀ entry ∈ (s.threads u).outbox.batch, entry.parent ∈ (s.threads u).holds g'.progress.parent
      rw [hcount.holds_eq hstage h]
      exact hs.owned u
  case entries =>
    show g'.items.Pairwise NotLate
    obtain ⟨sent, hitems, hsent⟩ := h.sends
    rw [hitems]
    rcases hsent with hnone | hmine
    · exact pairwise_append_of_no_entry hs.entries hnone
    · subst hmine
      rw [pairwise_append]
      refine ⟨hs.entries, ?_, ?_⟩
      · rw [Local.entries, pairwise_map]
        apply pairwise_of_forall
        intro first second token complete entry hfinish
        cases hfinish
      · rintro first hfirst second hsecond token complete entry rfl rfl hparent
        obtain ⟨e, he, hsame⟩ := mem_map.mp hsecond
        cases hsame
        have hheld := (hcount.of_mem (hs.owned t _ he)).2
        have hfinished := (hcount.of_finished
          (mem_map_of_mem (f := Prod.fst) (mem_finishes hfirst))).2
        rw [hparent] at hheld
        exact Nat.ne_of_gt hheld hfinished
  case below =>
    intro before finish after hfinishes child hchild
    replace hfinishes : g'.finishes = before ++ finish :: after := hfinishes
    replace hchild : g'.progress.parent child = some finish.1 := hchild
    have hold : ∀ token : Nat, s.shared.progress.pending token = 0 →
        g'.progress.parent child = some token → s.shared.progress.parent child = some token := by
      intro token hzero hup
      rcases h.parent_cases hstage hup with hsame | hheld
      · exact hsame
      · have hpositive := (hcount.of_mem hheld).2
        omega
    have hearlier : ∀ before after, s.shared.finishes = before ++ finish :: after →
        child ∈ before.map Prod.fst := by
      intro before after hfinished
      apply hs.below before finish after hfinished child
      apply hold finish.1 _ hchild
      exact (hcount.of_finished (by rw [hfinished]; simp)).2
    rcases h.finishes with hsame | ⟨token, complete, later, o, hv, hmore⟩
    · rw [hsame] at hfinishes
      exact hearlier before after hfinishes
    · rw [hmore] at hfinishes
      rcases eq_nil_or_concat after with rfl | ⟨rest, last, rfl⟩
      · obtain ⟨rfl, hlast⟩ := append_inj' hfinishes rfl
        cases hlast
        have hsettles : token ∈ (s.threads t).work.settles := by
          rw [hv]
          exact mem_singleton_self _
        have hzero := (hcount.of_settles hsettles).2
        exact hcount.children_finished hzero (hold token hzero hchild)
      · rw [concat_eq_append, ← cons_append, ← append_assoc] at hfinishes
        exact hearlier before rest (append_inj' hfinishes rfl).1

end Ish.Scan
