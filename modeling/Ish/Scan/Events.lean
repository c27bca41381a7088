import Ish.Scan.Holds

/-!
# The order of the events

What is received, and what an outbox has yet to send, names a directory only
behind the entry that introduces it. A directory is finished behind its entries
and behind every directory below it.
-/

namespace Ish.Scan

open Ish.Lib.Threads List

variable {l : Limits}

/-- One message of an event. -/
inductive Item where
  | started
  | entry (entry : ScanEntry)
  | notice (notice : Notice)
  | finish (directory : DirectoryToken) (complete : Bool)
  | ended
  deriving DecidableEq

def ScanEvent.items : ScanEvent → List Item
  | .Started => [.started]
  | .Entries entries => entries.map .entry
  | .DirectoriesFinished finishes => finishes.map fun finish => .finish finish.1 finish.2
  | .About notice => [.notice notice]
  | .Finished => [.ended]

def Notice.directory : Notice → DirectoryToken
  | .DirectoryExcluded directory | .DirectoryFailed directory => directory

/-- The directories an item introduces. -/
def Item.introduces : Item → List DirectoryToken
  | .started => [0]
  | .entry e => e.directory_token.toList
  | _ => []

/-- The directories an item is about. -/
def Item.names : Item → List DirectoryToken
  | .entry e => [e.parent]
  | .notice n => [n.directory]
  | .finish directory _ => [directory]
  | _ => []

def introductions (items : List Item) : List DirectoryToken := items.flatMap Item.introduces

/-- Each item names directories that are known before it. -/
def Introduced (known : List DirectoryToken) : List Item → Prop
  | [] => True
  | item :: items =>
    (∀ token ∈ item.names, token ∈ known) ∧ Introduced (known ++ item.introduces) items

@[simp] theorem introductions_append (items more : List Item) :
    introductions (items ++ more) = introductions items ++ introductions more :=
  flatMap_append ..

theorem Introduced.append {known items more}
    (h : Introduced known items) (hmore : Introduced (known ++ introductions items) more) :
    Introduced known (items ++ more) := by
  induction items generalizing known with
  | nil => simpa [introductions] using hmore
  | cons item items ih =>
    refine ⟨h.1, ih h.2 ?_⟩
    simpa [introductions, append_assoc] using hmore

theorem Introduced.of_append {known items more}
    (h : Introduced known (items ++ more)) : Introduced known items := by
  induction items generalizing known with
  | nil => trivial
  | cons item items ih => exact ⟨h.1, ih h.2⟩

theorem Introduced.mono
    (hsub : known ⊆ known') (h : Introduced known items) : Introduced known' items := by
  induction items generalizing known known' with
  | nil => trivial
  | cons item items ih =>
    refine ⟨fun token htoken => hsub (h.1 token htoken), ih ?_ h.2⟩
    intro token htoken
    rw [mem_append] at htoken ⊢
    exact htoken.imp_left fun hknown => hsub hknown

theorem Introduced.split {known before after item}
    (h : Introduced known (before ++ item :: after)) :
    ∀ token ∈ item.names, token ∈ known ++ introductions before := by
  induction before generalizing known with
  | nil =>
    intro token htoken
    exact mem_append_left _ (h.1 token htoken)
  | cons first before ih =>
    intro token htoken
    have hknown := ih h.2 token htoken
    simpa [introductions, append_assoc] using hknown

theorem introduced_of_names
    (hnames : ∀ item ∈ items, ∀ token ∈ item.names, token ∈ known) : Introduced known items := by
  induction items generalizing known with
  | nil => trivial
  | cons item items ih =>
    refine ⟨hnames item mem_cons_self, ih fun other hother token htoken => ?_⟩
    exact mem_append_left _ (hnames other (mem_cons_of_mem _ hother) token htoken)

/-! ## What is sent and what is to be sent -/

def Shared.items (g : Shared) : List Item := g.received.flatMap ScanEvent.items

/-- The entries a thread has not sent. -/
def Local.entries (v : Local) : List Item := v.outbox.batch.map .entry

/-- The directories a thread works on and those it has a task, a notice or a
release of. -/
def Work.tokens : Work → List DirectoryToken
  | .start token | .scanning token _ | .scanned token _ => [token]
  | .flushing after | .sending after | .releasing after => after.holds
  | .pushing todo kept after => todo ++ kept ++ after.holds
  | .offered task todo kept after => task :: todo ++ kept ++ after.holds
  | .marking token _ after | .dropping token after | .finishing token after
  | .finished token _ after => token :: after.holds
  | _ => []

def Local.tokens (v : Local) : List DirectoryToken :=
  v.work.tokens ++ v.outbox.held ++ v.outbox.releases.map Prod.fst ++
    v.outbox.notices.map Notice.directory

/-- What is known where the entries of `v` are sent. -/
def Shared.known (g : Shared) (v : Local) : List DirectoryToken :=
  introductions g.items ++ introductions v.entries

/-- **Directories are introduced before they are named.** -/
structure ScanContext.Announced (s : ScanContext l) : Prop where
  received : Introduced [] s.shared.items
  batch : ∀ t, Introduced (introductions s.shared.items) (s.threads t).entries
  tokens : ∀ t, ∀ token ∈ (s.threads t).tokens, token ∈ s.shared.known (s.threads t)
  published : ∀ token ∈ s.shared.published, token ∈ introductions s.shared.items
  finishes : ∀ finish ∈ s.shared.progress.pending_finishes,
    finish.1 ∈ introductions s.shared.items
  sent : ∀ entry, Item.entry entry ∈ s.shared.items → ∀ child, entry.directory_token = some child →
    s.shared.progress.parent child = some entry.parent
  unsent : ∀ t, ∀ entry ∈ (s.threads t).outbox.batch, ∀ child,
    entry.directory_token = some child → s.shared.progress.parent child = some entry.parent

variable {g g' : Shared} {t : Thread l} {v v' : Local} {a : Action DirectoryToken}
  {s : ScanContext l}

theorem mem_introductions
    (h : token ∈ introductions items) : token = 0 ∨
      ∃ entry, Item.entry entry ∈ items ∧ entry.directory_token = some token := by
  obtain ⟨item, hitem, htoken⟩ := mem_flatMap.mp h
  cases item with
  | started => exact .inl (mem_singleton.mp htoken)
  | entry entry => exact .inr ⟨entry, hitem, Option.mem_toList.mp htoken⟩
  | _ => cases htoken

theorem ScanContext.Announced.parent_mem (hs : s.Announced) (hcount : s.Counted)
    {token parent} (h : token ∈ introductions s.shared.items)
    (hparent : s.shared.progress.parent token = some parent) :
    parent ∈ introductions s.shared.items := by
  rcases mem_introductions h with rfl | ⟨entry, hentry, htoken⟩
  · exact absurd (hcount.parent 0 parent hparent).1 (Nat.not_lt_zero parent)
  · have htable := hs.sent entry hentry token htoken
    rw [hparent, Option.some.injEq] at htable
    obtain ⟨before, after, hitems⟩ := append_of_mem hentry
    have hknown := (hitems ▸ hs.received).split parent (by simp [Item.names, htable])
    rw [hitems, introductions_append]
    exact mem_append_left _ hknown

theorem ScanContext.Announced.of_thread (hs : s.Announced) {sent}
    (hitems : g'.items = s.shared.items ++ sent)
    (hsent : Introduced (introductions s.shared.items) sent)
    (hbatch : Introduced (introductions g'.items) v'.entries)
    (htokens : ∀ token ∈ v'.tokens, token ∈ g'.known v')
    (hpublished : ∀ token ∈ g'.published, token ∈ introductions g'.items)
    (hfinishes : ∀ finish ∈ g'.progress.pending_finishes, finish.1 ∈ introductions g'.items)
    (hparent : ∀ child parent, s.shared.progress.parent child = some parent →
      g'.progress.parent child = some parent)
    (hnew : ∀ entry, Item.entry entry ∈ sent ++ v'.entries → ∀ child,
      entry.directory_token = some child → g'.progress.parent child = some entry.parent) :
    (s.goto t g' v').Announced := by
  have hmore : introductions s.shared.items ⊆ introductions g'.items := by
    rw [hitems, introductions_append]
    exact subset_append_left ..
  constructor
  case received =>
    show Introduced [] g'.items
    rw [hitems]
    exact hs.received.append hsent
  case batch =>
    intro u
    by_cases hu : u = t
    · rw [hu, s.goto_self]
      exact hbatch
    · rw [s.goto_of_ne _ _ hu]
      exact (hs.batch u).mono hmore
  case tokens =>
    intro u
    by_cases hu : u = t
    · rw [hu, s.goto_self]
      exact htokens
    · intro token htoken
      rw [s.goto_of_ne _ _ hu] at htoken ⊢
      have hknown := hs.tokens u token htoken
      rw [Shared.known, mem_append] at hknown ⊢
      exact hknown.imp_left fun h => hmore h
  case published => exact hpublished
  case finishes => exact hfinishes
  case sent =>
    intro entry hentry child hchild
    replace hentry : Item.entry entry ∈ g'.items := hentry
    rw [hitems, mem_append] at hentry
    rcases hentry with hold | hsent
    · exact hparent child _ (hs.sent entry hold child hchild)
    · exact hnew entry (mem_append_left _ hsent) child hchild
  case unsent =>
    intro u entry hentry child hchild
    by_cases hu : u = t
    · rw [hu, s.goto_self] at hentry
      exact hnew entry (mem_append_right _ (mem_map_of_mem hentry)) child hchild
    · rw [s.goto_of_ne _ _ hu] at hentry
      exact hparent child _ (hs.unsent u entry hentry child hchild)

/-- An operation that sends nothing and adds no entry. -/
theorem ScanContext.Announced.quiet (hs : s.Announced) (hv : s.threads t = v)
    (hreceived : g'.received = s.shared.received)
    (hpending : g'.progress.pending_finishes = s.shared.progress.pending_finishes)
    (hparent : g'.progress.parent = s.shared.progress.parent)
    (hbatch : v'.outbox.batch = v.outbox.batch)
    (htokens : ∀ token ∈ v'.tokens, token ∈ v.tokens ∨ token ∈ introductions s.shared.items)
    (hpublished : ∀ token ∈ g'.published,
      token ∈ s.shared.published ∨ token ∈ introductions s.shared.items) :
    (s.goto t g' v').Announced := by
  subst hv
  have hitems : g'.items = s.shared.items := by rw [Shared.items, Shared.items, hreceived]
  have hentries : v'.entries = (s.threads t).entries := by
    rw [Local.entries, Local.entries, hbatch]
  have hnothing : g'.items = s.shared.items ++ [] := by rw [hitems, append_nil]
  apply hs.of_thread hnothing
  · trivial
  · rw [hitems, hentries]
    exact hs.batch t
  · intro token htoken
    rw [Shared.known, hitems, hentries]
    rcases htokens token htoken with hold | hknown
    · exact hs.tokens t token hold
    · exact mem_append_left _ hknown
  · intro token htoken
    rw [hitems]
    exact (hpublished token htoken).elim (hs.published token) id
  · rw [hpending, hitems]
    exact hs.finishes
  · intro child parent h
    rw [hparent]
    exact h
  · intro entry hentry child hchild
    rw [nil_append, hentries] at hentry
    rw [hparent]
    obtain ⟨e, he, hsame⟩ := mem_map.mp hentry
    cases hsame
    exact hs.unsent t _ he child hchild

theorem ScanContext.Announced.add_entry (hs : s.Announced) (hv : s.threads t = v)
    (entry : ScanEntry) (hmem : entry.parent ∈ v.tokens)
    (hreceived : g'.received = s.shared.received) (hpublished : g'.published = s.shared.published)
    (hpending : g'.progress.pending_finishes = s.shared.progress.pending_finishes)
    (hparent : ∀ child parent, s.shared.progress.parent child = some parent →
      g'.progress.parent child = some parent)
    (hchild : ∀ child, entry.directory_token = some child →
      g'.progress.parent child = some entry.parent)
    (hbatch : v'.outbox.batch = v.outbox.batch ++ [entry])
    (htokens : ∀ token ∈ v'.tokens, token ∈ v.tokens ∨ entry.directory_token = some token) :
    (s.goto t g' v').Announced := by
  subst hv
  have hitems : g'.items = s.shared.items := by rw [Shared.items, Shared.items, hreceived]
  have hentries : v'.entries = (s.threads t).entries ++ [.entry entry] := by
    rw [Local.entries, Local.entries, hbatch, map_append]
    rfl
  have hnothing : g'.items = s.shared.items ++ [] := by rw [hitems, append_nil]
  apply hs.of_thread hnothing
  · trivial
  · rw [hitems, hentries]
    refine (hs.batch t).append ⟨fun token htoken => ?_, trivial⟩
    rw [mem_singleton.mp htoken]
    exact hs.tokens t _ hmem
  · intro token htoken
    rw [Shared.known, hitems, hentries, introductions_append, ← append_assoc]
    rcases htokens token htoken with hold | hnew
    · exact mem_append_left _ (hs.tokens t token hold)
    · apply mem_append_right
      simp [introductions, Item.introduces, hnew]
  · rw [hpublished, hitems]
    exact hs.published
  · rw [hpending, hitems]
    exact hs.finishes
  · exact hparent
  · intro other hother child hsome
    rw [nil_append, hentries, mem_append, mem_singleton] at hother
    rcases hother with hold | hnew
    · obtain ⟨e, he, hsame⟩ := mem_map.mp hold
      cases hsame
      exact hparent child _ (hs.unsent t _ he child hsome)
    · cases hnew
      exact hchild child hsome

theorem ScanContext.Announced.send (hs : s.Announced) (hv : s.threads t = v)
    {sent} (hitems : g'.items = s.shared.items ++ sent)
    (hpublished : g'.published = s.shared.published)
    (hparent : g'.progress.parent = s.shared.progress.parent)
    (hpending : ∀ finish ∈ g'.progress.pending_finishes, finish.1 ∈ introductions s.shared.items)
    (hnames : ∀ item ∈ sent, item.introduces = [] ∧
      ∀ token ∈ item.names, token ∈ introductions s.shared.items)
    (hbatch : v.outbox.batch = []) (hbatch' : v'.outbox.batch = [])
    (htokens : ∀ token ∈ v'.tokens, token ∈ v.tokens ∨ token ∈ introductions s.shared.items) :
    (s.goto t g' v').Announced := by
  subst hv
  have hnothing : introductions sent = [] := by
    rw [introductions, flatMap_eq_nil_iff]
    exact fun item hitem => (hnames item hitem).1
  have hknown : introductions g'.items = introductions s.shared.items := by
    rw [hitems, introductions_append, hnothing, append_nil]
  apply hs.of_thread hitems
  · exact introduced_of_names fun item hitem => (hnames item hitem).2
  · rw [Local.entries, hbatch']
    trivial
  · intro token htoken
    rw [Shared.known, hknown]
    rcases htokens token htoken with hold | hmem
    · have htold := hs.tokens t token hold
      rw [Shared.known, Local.entries, hbatch] at htold
      rw [Local.entries, hbatch']
      exact htold
    · exact mem_append_left _ hmem
  · rw [hpublished, hknown]
    exact hs.published
  · rw [hknown]
    exact hpending
  · intro child parent h
    rw [hparent]
    exact h
  · intro entry hentry child hchild
    rw [Local.entries, hbatch', map_nil, append_nil] at hentry
    have hsame := (hnames _ hentry).1
    simp [Item.introduces, hchild] at hsame

theorem ScanContext.Announced.send_entries (hs : s.Announced) (hv : s.threads t = v)
    (hitems : g'.items = s.shared.items ++ v.entries)
    (hpublished : g'.published = s.shared.published) (hprogress : g'.progress = s.shared.progress)
    (hbatch' : v'.outbox.batch = []) (htokens : v'.tokens = v.tokens) :
    (s.goto t g' v').Announced := by
  subst hv
  apply hs.of_thread hitems
  · exact hs.batch t
  · rw [Local.entries, hbatch']
    trivial
  · intro token htoken
    rw [htokens] at htoken
    rw [Shared.known, hitems, introductions_append]
    exact mem_append_left _ (hs.tokens t token htoken)
  · intro token htoken
    rw [hpublished] at htoken
    rw [hitems, introductions_append]
    exact mem_append_left _ (hs.published token htoken)
  · intro finish hfinish
    rw [hprogress] at hfinish
    rw [hitems, introductions_append]
    exact mem_append_left _ (hs.finishes finish hfinish)
  · intro child parent h
    rw [hprogress]
    exact h
  · intro entry hentry child hchild
    have hnone : v'.entries = [] := by
      rw [Local.entries, hbatch']
      rfl
    rw [hnone, append_nil] at hentry
    rw [hprogress]
    obtain ⟨e, he, hsame⟩ := mem_map.mp hentry
    cases hsame
    exact hs.unsent t _ he child hchild

theorem ScanContext.Announced.mem_known (hs : s.Announced) (hv : s.threads t = v)
    (hbatch : v.outbox.batch = []) (h : token ∈ v.tokens) :
    token ∈ introductions s.shared.items := by
  subst hv
  have hknown := hs.tokens t token h
  rw [Shared.known, Local.entries, hbatch] at hknown
  simpa [introductions] using hknown

theorem items_append (g : Shared) (events : List ScanEvent) :
    Shared.items { g with received := g.received ++ events } =
      g.items ++ events.flatMap ScanEvent.items :=
  flatMap_append ..

/-- What `push_finished` sends was pending, or is the new finish. -/
theorem push_finished_mem (p : ScanProgress) (token : DirectoryToken) (complete : Bool) :
    (∀ finish ∈ (p.push_finished token complete).1.pending_finishes,
      finish ∈ p.pending_finishes ∨ finish = (token, complete)) ∧
    ∀ item ∈ (p.push_finished token complete).2.flatMap ScanEvent.items,
      ∃ finish, (finish ∈ p.pending_finishes ∨ finish = (token, complete)) ∧
        item = .finish finish.1 finish.2 := by
  simp only [ScanProgress.push_finished]
  split
  · refine ⟨fun finish hfinish => ?_, fun item hitem => by simp at hitem⟩
    simpa [mem_append] using hfinish
  · refine ⟨fun finish hfinish => by simp at hfinish, fun item hitem => ?_⟩
    simp only [flatMap_cons, flatMap_nil, append_nil, ScanEvent.items] at hitem
    obtain ⟨finish, hfinish, hsame⟩ := mem_map.mp hitem
    exact ⟨finish, by simpa [mem_append] using hfinish, hsame.symm⟩

theorem ScanContext.Announced.goto (hs : s.Announced) (hcount : s.Counted)
    (hstage : (s.threads t).Staged) (h : Scans s.shared t (s.threads t) a g' v') :
    (s.goto t g' v').Announced := by
  generalize hv : s.threads t = v at h hstage
  cases h with
  | file token complete o =>
    apply hs.add_entry hv ⟨token, none, .Complete⟩
    · simp [Local.tokens, Work.tokens]
    · rfl
    · rfl
    · rfl
    · exact fun _ _ h => h
    · exact nofun
    · rfl
    · exact fun _ h => .inl h
  | faulty token complete o state h =>
    apply hs.add_entry hv ⟨token, none, state⟩
    · simp [Local.tokens, Work.tokens]
    · rfl
    · rfl
    · rfl
    · exact fun _ _ h => h
    · exact nofun
    · rfl
    · intro other hother
      left
      cases state <;> simp_all [Local.tokens, Work.tokens, entryNotices, Notice.directory]
      all_goals tauto
  | directory token complete o h =>
    have hlt : ∀ child parent : Nat, s.shared.progress.parent child = some parent →
        child ≠ s.shared.next_token := fun child parent hparent =>
      Nat.ne_of_lt (hcount.parent child parent hparent).2
    apply hs.add_entry hv ⟨token, some s.shared.next_token, .Complete⟩
    · simp [Local.tokens, Work.tokens]
    · rfl
    · rfl
    · rfl
    · intro child parent hparent
      exact (Function.update_of_ne (hlt child parent hparent) ..).trans hparent
    · intro child hchild
      cases hchild
      exact Function.update_self ..
    · rfl
    · intro other hother
      simp only [Local.tokens, Work.tokens, mem_append, mem_singleton] at hother ⊢
      rw [Option.some.injEq, eq_comm (a := s.shared.next_token)]
      tauto
  | sendEntries after o h =>
    apply hs.send_entries hv
    · rw [items_append]
      simp [ScanEvent.items, Local.entries]
    · rfl
    · rfl
    · rfl
    · rfl
  | sendNotice after o notice notices h =>
    have hbatch : o.batch = [] := hstage.1
    apply hs.send hv
    · exact items_append ..
    · rfl
    · rfl
    · exact hs.finishes
    · intro item hitem
      simp only [flatMap_cons, flatMap_nil, ScanEvent.items, append_nil,
        mem_singleton] at hitem
      subst hitem
      refine ⟨rfl, fun token htoken => ?_⟩
      rw [mem_singleton.mp htoken]
      exact hs.mem_known hv hbatch (by simp [Local.tokens, h])
    · exact hbatch
    · exact hbatch
    · intro token htoken
      left
      simp only [Local.tokens, Work.tokens, h, map_cons, mem_append,
        mem_cons] at htoken ⊢
      tauto
  | finishDirectory token complete after o =>
    have hbatch : o.batch = [] := hstage.1
    have hmem : token ∈ introductions s.shared.items :=
      hs.mem_known hv hbatch (by simp [Local.tokens, Work.tokens])
    have hknown : ∀ finish : DirectoryToken × Bool,
        finish ∈ s.shared.progress.pending_finishes ∨ finish = (token, complete) →
        finish.1 ∈ introductions s.shared.items := by
      rintro finish (hold | rfl)
      · exact hs.finishes finish hold
      · exact hmem
    obtain ⟨hkept, hsent⟩ := push_finished_mem s.shared.progress token complete
    apply hs.send hv
    · exact items_append { s.shared with
        progress := (s.shared.progress.push_finished token complete).1 } _
    · rfl
    · exact ScanProgress.push_finished_parent ..
    · exact fun finish hfinish => hknown finish (hkept finish hfinish)
    · intro item hitem
      obtain ⟨finish, hfinish, rfl⟩ := hsent item hitem
      refine ⟨rfl, fun other hother => ?_⟩
      rw [mem_singleton.mp hother]
      exact hknown finish hfinish
    · exact hbatch
    · exact hbatch
    · intro other hother
      simp only [afterFinish] at hother
      cases hparent : s.shared.progress.parent token with
      | none =>
        rw [hparent] at hother
        left
        simp only [Local.tokens, Work.tokens, mem_append, mem_cons] at hother ⊢
        tauto
      | some parent =>
        rw [hparent] at hother
        simp only [Local.tokens, Work.tokens, mem_append, mem_cons] at hother ⊢
        by_cases hup : other = parent
        · right
          rw [hup]
          exact hs.parent_mem hcount hmem hparent
        · left
          tauto
  | begin task left o h =>
    have htask : task ∈ introductions s.shared.items :=
      hs.published task (by rw [h]; exact Multiset.mem_cons_self ..)
    refine hs.quiet hv rfl rfl rfl rfl ?_ ?_
    · intro token htoken
      simp only [Local.tokens, Work.tokens, mem_append, mem_singleton] at htoken ⊢
      by_cases hself : token = task
      · right
        rw [hself]
        exact htask
      · left
        tauto
    · intro token htoken
      left
      rw [h]
      exact Multiset.mem_cons_of_mem htoken
  | publish task todo kept after o =>
    have hbatch : o.batch = [] := hstage.1
    have htask : task ∈ introductions s.shared.items :=
      hs.mem_known hv hbatch (by simp [Local.tokens, Work.tokens])
    refine hs.quiet hv rfl rfl rfl rfl ?_ ?_
    · intro token htoken
      left
      simp only [Local.tokens, Work.tokens, cons_append, mem_append,
        mem_cons] at htoken ⊢
      tauto
    · intro token htoken
      rcases Multiset.mem_cons.mp htoken with rfl | hold
      · exact .inr htask
      · exact .inl hold
  | mark token complete after o =>
    refine hs.quiet hv rfl (ScanProgress.mark_pending_finishes ..) (ScanProgress.mark_parent ..)
      rfl ?_ ?_
    · intro other hother
      left
      simp only [Local.tokens, Work.tokens, mem_append, mem_cons] at hother ⊢
      tauto
    · exact fun _ => .inl
  | reopenFailed token o w hw | scanFailed token complete o w hw =>
    rcases hw with rfl | rfl
    all_goals
      refine hs.quiet hv rfl rfl rfl rfl ?_ ?_
      · intro other hother
        left
        simp [Local.tokens, Work.tokens, Outbox.failed_task, Notice.directory,
          Resume.holds] at hother ⊢
        tauto
      · exact fun _ => .inl
  | reopenExcluded token o | streamFailed token complete o =>
    refine hs.quiet hv rfl rfl rfl rfl ?_ ?_
    · intro other hother
      left
      simp [Local.tokens, Work.tokens, Notice.directory] at hother ⊢
      tauto
    · exact fun _ => .inl
  | scanned token complete o w hw hroot =>
    rcases hw with rfl | rfl
    all_goals
      refine hs.quiet hv rfl rfl rfl rfl ?_ ?_
      · intro other hother
        left
        simp [Local.tokens, Work.tokens, Resume.holds] at hother ⊢
        tauto
      · exact fun _ => .inl
  | pop task held o h | release after o token complete releases h =>
    refine hs.quiet hv rfl rfl rfl rfl ?_ ?_
    · intro other hother
      left
      simp [Local.tokens, Work.tokens, h] at hother ⊢
      tauto
    · exact fun _ => .inl
  | released after o h =>
    refine hs.quiet hv rfl rfl rfl rfl ?_ ?_
    · intro other hother
      left
      cases after <;> simpa [Local.tokens, Work.tokens, Resume.work, Resume.holds] using hother
    · exact fun _ => .inl
  | finish o =>
    refine hs.quiet hv rfl rfl rfl rfl ?_ ?_
    · intro other hother
      left
      cases t <;> exact hother
    · exact fun _ => .inl
  | _ =>
    refine hs.quiet hv rfl rfl rfl rfl ?_ ?_
    · intro other hother
      left
      simp [Local.tokens, Work.tokens, Resume.holds] at hother ⊢
      try tauto
    · exact fun _ => .inl

end Ish.Scan
