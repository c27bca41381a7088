import Ish.Scan.Order
import Mathlib.Logic.Relation

/-!
# Complete and incomplete directories

A scan that goes wrong blames its directory, first in the outbox of its thread and
then in the table; a directory that is finished as incomplete blames its parent.
When the last hold on a directory is gone nobody has blame to add, so its flag is
what the scans at and below it make it.
-/

namespace Ish.Scan

open Ish.Lib.Threads List Function

variable {l : Limits} {g g' : Shared} {t : Thread l} {v v' : Local} {a : Action DirectoryToken}
  {s : ScanContext l}

/-- `other` is `token`, or is below it. -/
def Shared.Below (g : Shared) (token other : DirectoryToken) : Prop :=
  Relation.ReflTransGen (fun child parent => g.progress.parent child = some parent) other token

/-- A scan at or below `token` met an error or an exclusion. -/
def Shared.Faulty (g : Shared) (token : DirectoryToken) : Prop :=
  ∃ other ∈ g.faults, g.Below token other

def blame (token : DirectoryToken) (complete : Bool) : List DirectoryToken :=
  if complete then [] else [token]

def Resume.blames : Resume → List DirectoryToken
  | .scanning token complete => blame token complete
  | _ => []

/-- The directories a thread's work is about to mark as incomplete. -/
def Work.blames : Work → List DirectoryToken
  | .scanning token complete | .scanned token complete => blame token complete
  | .flushing after | .sending after | .pushing _ _ after | .offered _ _ _ after
  | .releasing after | .dropping _ after | .finishing _ after | .finished _ _ after => after.blames
  | .marking token complete after => blame token complete ++ after.blames
  | _ => []

def Local.blames (v : Local) : List DirectoryToken :=
  v.work.blames ++ v.outbox.releases.flatMap fun release => blame release.1 release.2

theorem blame_subset (token : DirectoryToken) (complete : Bool) : blame token complete ⊆ [token] := by
  cases complete
  · exact List.Subset.refl _
  · exact nil_subset _

theorem Resume.blames_subset (after : Resume) : after.blames ⊆ after.holds := by
  cases after with
  | scanning token complete => exact blame_subset token complete
  | _ => exact nil_subset _

theorem Local.blames_subset (v : Local) (table : DirectoryToken → Option DirectoryToken) :
    v.blames ⊆ v.holds table := by
  have hwork : v.work.blames ⊆ v.work.holds table := by
    cases v.work with
    | start token | scanning token complete | scanned token complete =>
      first
        | exact blame_subset token complete
        | exact nil_subset _
    | flushing after | sending after | releasing after => exact after.blames_subset
    | pushing todo kept after | offered task todo kept after =>
      exact subset_append_of_subset_right _ after.blames_subset
    | marking token complete after =>
      intro other hother
      rcases mem_append.mp hother with hself | hafter
      · rw [mem_singleton.mp (blame_subset token complete hself)]
        exact mem_cons_self
      · exact mem_cons_of_mem _ (after.blames_subset hafter)
    | dropping token after => exact subset_cons_of_subset _ after.blames_subset
    | finishing token after | finished token complete after =>
      exact subset_append_of_subset_right _ after.blames_subset
    | _ => exact nil_subset _
  intro token htoken
  simp only [Local.blames, Local.holds, mem_append, mem_flatMap] at htoken ⊢
  rcases htoken with hblamed | ⟨release, hrelease, hblamed⟩
  · exact .inl (.inl (hwork hblamed))
  · right
    rw [mem_singleton.mp (blame_subset _ _ hblamed)]
    exact mem_map_of_mem hrelease

/-! ## What an operation does to the flags -/

variable {token : DirectoryToken}

theorem Scans.blames_old (h : Scans g t v a g' v')
    (hmem : token ∈ v.blames) : token ∈ v'.blames ∨ g'.progress.incomplete token = true := by
  cases h with
  | mark other complete after o =>
    cases complete with
    | true => exact .inl hmem
    | false =>
      by_cases hself : token = other
      · right
        rw [hself]
        exact update_self ..
      · left
        simp [Local.blames, Work.blames, blame, hself] at hmem ⊢
        exact hmem
  | reopenFailed other o w hw | scanFailed other complete o w hw =>
    rcases hw with rfl | rfl
    all_goals
      left
      simp [Local.blames, Work.blames, Resume.blames, Outbox.failed_task, blame] at hmem ⊢
      tauto
  | scanned other complete o w hw hroot =>
    rcases hw with rfl | rfl
    all_goals
      left
      simp only [Local.blames, Work.blames, Resume.blames, flatMap_append,
        flatMap_cons, flatMap_nil, append_nil, nil_append,
        mem_append] at hmem ⊢
      tauto
  | released after o h =>
    left
    cases after <;> simpa [Local.blames, Work.blames, Resume.work, Resume.blames] using hmem
  | release after o other complete releases h =>
    left
    simp [Local.blames, Work.blames, h] at hmem ⊢
    tauto
  | finishDirectory other complete after o =>
    left
    cases hparent : g.progress.parent other <;>
      simp [Local.blames, Work.blames, afterFinish, hparent] at hmem ⊢ <;> tauto
  | finish o =>
    left
    cases t <;> exact hmem
  | _ =>
    left
    simp [Local.blames, Work.blames, Resume.blames, blame] at hmem ⊢
    try tauto

theorem Scans.faults (h : Scans g t v a g' v') : g.faults ⊆ g'.faults ∧
    ∀ token ∈ g'.faults, token ∈ g.faults ∨ token ∈ v'.blames := by
  cases h with
  | reopenFailed other o w hw | scanFailed other complete o w hw =>
    refine ⟨subset_cons_self .., fun token htoken => ?_⟩
    rcases mem_cons.mp htoken with rfl | hold
    · right
      simp [Local.blames, Outbox.failed_task, blame]
    · exact .inl hold
  | reopenExcluded other o | faulty other complete o state h | streamFailed other complete o =>
    refine ⟨subset_cons_self .., fun token htoken => ?_⟩
    rcases mem_cons.mp htoken with rfl | hold
    · right
      simp [Local.blames, Work.blames, blame]
    · exact .inl hold
  | _ => exact ⟨List.Subset.refl _, fun _ => .inl⟩

theorem Scans.blames_new (h : Scans g t v a g' v')
    (hmem : token ∈ v'.blames) : token ∈ v.blames ∨ token ∈ g'.faults ∨
      ∃ child after o, v = ⟨.finished child false after, o⟩ ∧
        g.progress.parent child = some token := by
  cases h with
  | reopenFailed other o w hw | scanFailed other complete o w hw =>
    rcases hw with rfl | rfl
    all_goals
      simp [Local.blames, Work.blames, Resume.blames, Outbox.failed_task, blame] at hmem ⊢
      tauto
  | scanned other complete o w hw hroot =>
    rcases hw with rfl | rfl
    all_goals
      left
      simp only [Local.blames, Work.blames, Resume.blames, flatMap_append,
        flatMap_cons, flatMap_nil, append_nil, nil_append,
        mem_append] at hmem ⊢
      tauto
  | released after o h =>
    left
    cases after <;> simpa [Local.blames, Work.blames, Resume.work, Resume.blames] using hmem
  | release after o other complete releases h =>
    left
    simp [Local.blames, Work.blames, h] at hmem ⊢
    tauto
  | mark other complete after o =>
    left
    simp [Local.blames, Work.blames] at hmem ⊢
    tauto
  | finishDirectory other complete after o =>
    cases hparent : g.progress.parent other with
    | none =>
      left
      simpa [Local.blames, Work.blames, afterFinish, hparent] using hmem
    | some parent =>
      simp only [afterFinish, hparent, Local.blames, Work.blames, append_assoc,
        mem_append (s := blame parent complete)] at hmem
      rcases hmem with hself | hold
      · cases complete with
        | true => cases hself
        | false =>
          right; right
          rw [mem_singleton.mp (blame_subset parent false hself)]
          exact ⟨other, after, o, rfl, hparent⟩
      · exact .inl hold
  | finish o =>
    left
    cases t <;> exact hmem
  | _ =>
    simp [Local.blames, Work.blames, Resume.blames, blame] at hmem ⊢
    try tauto

/-- A flag changes when its directory is registered, or marked by a thread that
blames it. -/
theorem Scans.incomplete_eq (h : Scans g t v a g' v') (token : Nat) :
    g'.progress.incomplete token = g.progress.incomplete token ∨
      token ∈ v.blames ∧ g'.progress.incomplete token = true ∨
      token = g.next_token ∧ g'.progress.incomplete token = false := by
  cases h with
  | mark other complete after o =>
    cases complete with
    | true => exact .inl rfl
    | false =>
      by_cases hself : token = other
      · right; left
        rw [hself]
        refine ⟨?_, update_self ..⟩
        simp [Local.blames, Work.blames, blame]
      · exact .inl (update_of_ne hself ..)
  | directory other complete o h =>
    by_cases hnew : token = g.next_token
    · right; right
      rw [hnew]
      exact ⟨rfl, update_self ..⟩
    · exact .inl (update_of_ne hnew ..)
  | finishDirectory other complete after o =>
    left
    rw [ScanProgress.push_finished_incomplete]
  | _ => exact .inl rfl

/-- A counter that reaches zero does so in a thread that finishes its directory. -/
theorem Scans.pending_zero (hstage : v.Staged) (h : Scans g t v a g' v') {token : Nat}
    (hzero : g'.progress.pending token = 0) (hfresh : g.progress.pending g.next_token = 0)
    (hheld : ∀ parent ∈ v.holds g.progress.parent, 0 < g.progress.pending parent) :
    g.progress.pending token = 0 ∨ token ∈ v'.work.settles := by
  rcases h.table hstage with ⟨-, hpending, -, -, -⟩ |
    ⟨parent, hmem, -, hprogress, -, -, -, -⟩ | ⟨other, after, o, hv, rfl, hlast, hg⟩ |
    ⟨other, after, o, hv, -, hmore, hg⟩
  · rw [hpending] at hzero
    exact .inl hzero
  · have hpositive : 0 < g.progress.pending parent := hheld parent hmem
    have hne : parent ≠ g.next_token := by
      rintro rfl
      omega
    rw [hprogress, register_pending _ hne] at hzero
    split at hzero
    · exact absurd hzero (Nat.succ_ne_zero _)
    · split at hzero
      · exact absurd hzero Nat.one_ne_zero
      · exact .inl hzero
  · rw [(drop_changes hg).2] at hzero
    split at hzero
    · rename_i hself
      right
      rw [hself]
      exact mem_singleton_self _
    · rw [Nat.sub_zero] at hzero
      exact .inl hzero
  · have hpositive : 0 < g.progress.pending other := by
      apply hheld
      rw [hv]
      simp [Local.holds, Work.holds]
    rw [(drop_changes hg).2] at hzero
    split at hzero
    · rename_i hself
      rw [hself] at hzero
      omega
    · rw [Nat.sub_zero] at hzero
      exact .inl hzero

theorem Scans.next_token_le (hstage : v.Staged) (h : Scans g t v a g' v') :
    g.next_token ≤ g'.next_token := by
  rcases h.table hstage with ⟨hnext, -, -, -, -⟩ | ⟨parent, -, hnext, -, -, -, -, -⟩ |
    ⟨token, after, o, -, -, -, hg⟩ | ⟨token, after, o, -, -, -, hg⟩
  · exact Nat.le_of_eq hnext.symm
  · rw [hnext]
    exact Nat.le_succ _
  · rw [hg]
  · rw [hg]

theorem Scans.settles (h : Scans g t v a g' v')
    (hmem : token ∈ v.work.settles) : token ∈ v'.work.settles ∨
      ∃ complete after o, v = ⟨.finished token complete after, o⟩ ∧
        ∀ parent, complete = false → g.progress.parent token = some parent →
          parent ∈ v'.blames := by
  cases h with
  | load other after o =>
    left
    exact hmem
  | finishDirectory other complete after o =>
    rw [mem_singleton.mp hmem]
    refine .inr ⟨complete, after, o, rfl, fun parent hcomplete hparent => ?_⟩
    subst hcomplete
    simp [afterFinish, hparent, Local.blames, Work.blames, blame]
  | _ => cases hmem

/-- A flag that is about to be pushed was read from the table. -/
theorem Scans.finished (h : Scans g t v a g' v') {complete}
    {after} (hwork : v'.work = .finished token complete after) :
    complete = !g'.progress.incomplete token := by
  cases h with
  | load other after o =>
    cases hwork
    rfl
  | reopenFailed other o w hw | scanFailed other complete o w hw | scanned other complete o w hw =>
    rcases hw with rfl | rfl <;> cases hwork
  | released after o h => cases after <;> cases hwork
  | finishDirectory other complete after o =>
    simp only [afterFinish] at hwork
    cases hparent : g.progress.parent other <;> rw [hparent] at hwork <;> cases hwork
  | finish o => cases t <;> cases hwork
  | _ => cases hwork

/-! ## Flags -/

/-- A directory that is marked, or is to be, is faulty. -/
structure ScanContext.Blamed (s : ScanContext l) : Prop where
  incomplete : ∀ token, s.shared.progress.incomplete token = true → s.shared.Faulty token
  blames : ∀ t, ∀ token ∈ (s.threads t).blames, s.shared.Faulty token

/-- **A faulty directory is marked, or is to be.** -/
structure ScanContext.Judged (s : ScanContext l) : Prop where
  fresh : ∀ token : Nat, s.shared.next_token ≤ token →
    s.shared.progress.incomplete token = false
  fault : ∀ token ∈ s.shared.faults,
    s.shared.progress.incomplete token = true ∨ ∃ t, token ∈ (s.threads t).blames
  child : ∀ child parent, s.shared.progress.parent child = some parent →
    s.shared.progress.incomplete child = true → s.shared.progress.pending child = 0 →
    s.shared.progress.incomplete parent = true ∨ (∃ t, parent ∈ (s.threads t).blames) ∨
      ∃ t, child ∈ (s.threads t).work.settles
  finished : ∀ finish ∈ s.shared.finishes,
    finish.2 = !s.shared.progress.incomplete finish.1
  finishing : ∀ t token complete after, (s.threads t).work = .finished token complete after →
    complete = !s.shared.progress.incomplete token

theorem ScanContext.Counted.faulty_mono (hs : s.Counted) (hstage : (s.threads t).Staged)
    (h : Scans s.shared t (s.threads t) a g' v')
    (hfaulty : s.shared.Faulty token) : g'.Faulty token := by
  obtain ⟨other, hother, hbelow⟩ := hfaulty
  refine ⟨other, h.faults.1 hother,
    Relation.ReflTransGen.mono (fun child parent hparent => ?_) _ _ hbelow⟩
  rw [h.parent_of_ne hstage (Nat.ne_of_lt (hs.parent child parent hparent).2), hparent]

theorem faulty_of_mem (h : token ∈ g.faults) : g.Faulty token :=
  ⟨token, h, .refl⟩

theorem ScanContext.Blamed.goto (hs : s.Blamed) (hcount : s.Counted) (hjudged : s.Judged)
    (hstage : (s.threads t).Staged) (h : Scans s.shared t (s.threads t) a g' v') :
    (s.goto t g' v').Blamed := by
  constructor
  case incomplete =>
    intro token htoken
    replace htoken : g'.progress.incomplete token = true := htoken
    rcases h.incomplete_eq token with hsame | ⟨hblamed, -⟩ | ⟨-, hnew⟩
    · rw [hsame] at htoken
      exact hcount.faulty_mono hstage h (hs.incomplete token htoken)
    · exact hcount.faulty_mono hstage h (hs.blames t token hblamed)
    · rw [hnew] at htoken
      cases htoken
  case blames =>
    intro u token htoken
    show g'.Faulty token
    by_cases hu : u = t
    · rw [hu, s.goto_self] at htoken
      rcases h.blames_new htoken with hold | hfault | ⟨child, after, o, hv, hparent⟩
      · exact hcount.faulty_mono hstage h (hs.blames t token hold)
      · exact faulty_of_mem hfault
      · have hflag := hjudged.finishing t child false after (by rw [hv])
        have hincomplete : s.shared.progress.incomplete child = true := by simpa using hflag.symm
        obtain ⟨other, hother, hbelow⟩ := hs.incomplete child hincomplete
        exact hcount.faulty_mono hstage h ⟨other, hother, hbelow.tail hparent⟩
    · rw [s.goto_of_ne _ _ hu] at htoken
      exact hcount.faulty_mono hstage h (hs.blames u token htoken)

/-- A directory without holds keeps its flag. -/
theorem ScanContext.Counted.incomplete_eq (hs : s.Counted)
    (h : Scans s.shared t (s.threads t) a g' v') {token}
    (hzero : token < s.shared.next_token ∧ s.shared.progress.pending token = 0) :
    g'.progress.incomplete token = s.shared.progress.incomplete token := by
  rcases h.incomplete_eq token with hsame | ⟨hblamed, -⟩ | ⟨hnew, -⟩
  · exact hsame
  · have hpositive := (hs.of_mem ((s.threads t).blames_subset _ hblamed)).2
    omega
  · omega

theorem ScanContext.Judged.goto (hs : s.Judged) (hcount : s.Counted)
    (hstage : (s.threads t).Staged) (h : Scans s.shared t (s.threads t) a g' v') :
    (s.goto t g' v').Judged := by
  -- blame of a thread stays, or the flag is set
  have hblamed : ∀ token, (∃ u, token ∈ (s.threads u).blames) →
      g'.progress.incomplete token = true ∨ ∃ u, token ∈ ((s.goto t g' v').threads u).blames := by
    rintro token ⟨u, hu⟩
    by_cases hself : u = t
    · subst hself
      rcases h.blames_old hu with hold | hmarked
      · exact .inr ⟨u, by rwa [s.goto_self]⟩
      · exact .inl hmarked
    · exact .inr ⟨u, by rwa [s.goto_of_ne _ _ hself]⟩
  have hmarked : ∀ token : Nat, token < s.shared.next_token →
      s.shared.progress.incomplete token = true → g'.progress.incomplete token = true := by
    intro token hlt htoken
    rcases h.incomplete_eq token with hsame | ⟨-, hset⟩ | ⟨hnew, -⟩
    · rw [hsame, htoken]
    · exact hset
    · omega
  have hknown : ∀ token : Nat, s.shared.progress.incomplete token = true →
      token < s.shared.next_token := by
    intro token htoken
    by_contra hnot
    rw [hs.fresh token (Nat.le_of_not_lt hnot)] at htoken
    cases htoken
  constructor
  case fresh =>
    intro token hfresh
    replace hfresh : g'.next_token ≤ token := hfresh
    show g'.progress.incomplete token = false
    have hle := h.next_token_le hstage
    rcases h.incomplete_eq token with hsame | ⟨hmine, -⟩ | ⟨-, hnew⟩
    · rw [hsame]
      exact hs.fresh token (Nat.le_trans hle hfresh)
    · have hlt := (hcount.of_mem ((s.threads t).blames_subset _ hmine)).1
      omega
    · exact hnew
  case fault =>
    intro token htoken
    replace htoken : token ∈ g'.faults := htoken
    rcases h.faults.2 token htoken with hold | hnew
    · rcases hs.fault token hold with hset | hmine
      · exact .inl (hmarked token (hknown token hset) hset)
      · exact hblamed token hmine
    · exact .inr ⟨t, by rwa [s.goto_self]⟩
  case child =>
    intro child parent hparent hchild hzero
    replace hchild : g'.progress.incomplete child = true := hchild
    show g'.progress.incomplete parent = true ∨ _
    have hheld : ∀ token ∈ (s.threads t).holds s.shared.progress.parent,
        0 < s.shared.progress.pending token := fun token htoken => (hcount.of_mem htoken).2
    rcases h.pending_zero hstage hzero (hcount.fresh _ (Nat.le_refl _)) hheld with hbefore | hlast
    · have hset : s.shared.progress.incomplete child = true := by
        rcases h.incomplete_eq child with hsame | ⟨hmine, -⟩ | ⟨-, hnew⟩
        · rw [← hsame, hchild]
        · have hpositive := hheld child ((s.threads t).blames_subset _ hmine)
          omega
        · rw [hnew] at hchild
          cases hchild
      have hlt := hknown child hset
      have hup : s.shared.progress.parent child = some parent := by
        rw [← h.parent_of_ne hstage (Nat.ne_of_lt hlt)]
        exact hparent
      have hparentlt := (hcount.parent child parent hup).1
      rcases hs.child child parent hup hset hbefore with hmark | hmine | ⟨u, hu⟩
      · exact .inl (hmarked parent (Nat.lt_trans hparentlt hlt) hmark)
      · exact (hblamed parent hmine).imp_right .inl
      · by_cases hself : u = t
        · subst hself
          rcases h.settles hu with hstill | ⟨complete, after, o, hv, hblame⟩
          · exact .inr (.inr ⟨u, by rwa [s.goto_self]⟩)
          · have hflag := hs.finishing u child complete after (by rw [hv])
            rw [hset] at hflag
            exact .inr (.inl ⟨u, by rw [s.goto_self]; exact hblame parent hflag hup⟩)
        · exact .inr (.inr ⟨u, by rwa [s.goto_of_ne _ _ hself]⟩)
    · exact .inr (.inr ⟨t, by rwa [s.goto_self]⟩)
  case finished =>
    intro finish hfinish
    replace hfinish : finish ∈ g'.finishes := hfinish
    show finish.2 = !g'.progress.incomplete finish.1
    have hold : ∀ finish ∈ s.shared.finishes, finish.2 = !g'.progress.incomplete finish.1 := by
      intro finish hfinish
      rw [hcount.incomplete_eq h (hcount.of_finished (mem_map_of_mem hfinish))]
      exact hs.finished finish hfinish
    rcases h.finishes with hsame | ⟨token, complete, after, o, hv, hmore⟩
    · rw [hsame] at hfinish
      exact hold finish hfinish
    · rw [hmore, mem_append, mem_singleton] at hfinish
      rcases hfinish with hbefore | rfl
      · exact hold finish hbefore
      · have hsettles : token ∈ (s.threads t).work.settles := by
          rw [hv]
          exact mem_singleton_self _
        rw [hcount.incomplete_eq h (hcount.of_settles hsettles)]
        exact hs.finishing t token complete after (by rw [hv])
  case finishing =>
    intro u token complete after hwork
    show complete = !g'.progress.incomplete token
    by_cases hu : u = t
    · rw [hu, s.goto_self] at hwork
      exact h.finished hwork
    · rw [s.goto_of_ne _ _ hu] at hwork
      have hsettles : token ∈ (s.threads u).work.settles := by
        rw [hwork]
        exact mem_singleton_self _
      rw [hcount.incomplete_eq h (hcount.of_settles hsettles)]
      exact hs.finishing u token complete after hwork

/-- **A directory is finished as complete exactly when no scan at or below it
met an error or an exclusion.** -/
theorem ScanContext.Judged.complete_iff (hs : s.Judged) (hblamed : s.Blamed) (hcount : s.Counted)
    {token : Nat} {complete} (h : (token, complete) ∈ s.shared.finishes) :
    complete = true ↔ ¬ s.shared.Faulty token := by
  have hflag : complete = !s.shared.progress.incomplete token := hs.finished _ h
  have hzero := (hcount.of_finished (mem_map_of_mem h)).2
  -- nobody blames a directory that has no holds
  have hnobody : ∀ other : Nat, s.shared.progress.pending other = 0 →
      ¬ ∃ t, other ∈ (s.threads t).blames := by
    rintro other hother ⟨t, ht⟩
    have hpositive := (hcount.of_mem ((s.threads t).blames_subset _ ht)).2
    omega
  have hpath : ∀ other, s.shared.Below token other → s.shared.progress.pending other = 0 ∧
      (s.shared.progress.incomplete other = true → s.shared.progress.incomplete token = true) := by
    intro other hbelow
    induction hbelow using Relation.ReflTransGen.head_induction_on with
    | refl => exact ⟨hzero, id⟩
    | head hparent _ ih =>
      have hfinished := hcount.children_finished ih.1 hparent
      have hdone := (hcount.of_finished hfinished).2
      refine ⟨hdone, fun hset => ?_⟩
      rcases hs.child _ _ hparent hset hdone with hup | hmine | hsettles
      · exact ih.2 hup
      · exact absurd hmine (hnobody _ ih.1)
      · exact absurd hsettles (hcount.not_settles hfinished)
  constructor
  · rintro rfl ⟨other, hfault, hbelow⟩
    have hclean : s.shared.progress.incomplete token = false := by simpa using hflag
    obtain ⟨hdone, hrises⟩ := hpath other hbelow
    rcases hs.fault other hfault with hset | hmine
    · rw [hrises hset] at hclean
      cases hclean
    · exact hnobody other hdone hmine
  · intro hclean
    rw [hflag, Bool.not_eq_true']
    by_contra hset
    exact hclean (hblamed.incomplete token (by simpa using hset))

end Ish.Scan
