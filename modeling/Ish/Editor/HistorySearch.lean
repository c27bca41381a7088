import Ish.Editor.LineBuffer
import Ish.History.Search
import Ish.Input.Event

/-!
# HistorySearch — searching the history while the query is edited

The model of the history search mode of `src/editor.rs`. Every stack and buffer
is a list with its top first. A search that panics leaves no state: `none`.
-/

namespace Ish.Editor

open Ish.Lib List
open Ish.Lib.UnixPath (Path)
open Ish.History (Tables FuzzyMatch Lowercase Request searchLimited matching Matches rankEntry)
open Ish.Input (Key KeyEvent)

/-- What a search reads from the shell: the history, the working directory, and
the clock. -/
structure Shell where
  lower : Lowercase
  history : Tables
  cwd : Path
  now : Nat

/-- `fuzzyMatches` is the field `matches`. -/
structure HistorySearch where
  query : LineBuffer
  fuzzyMatches : List FuzzyMatch
  candidates : List Nat
  scratch : List Nat
  candidate_stack : List (Nat × List Nat)
  spare_candidates : List (List Nat)
  selected : Nat
  saved_line : List Char

inductive HistoryAction where
  | Continue
  | Accept (text : List Char)
  | Cancel
  deriving DecidableEq, Repr

inductive SearchEvent where
  | key (key : KeyEvent)
  | paste (text : List Char)

namespace Shell

variable (shell : Shell)

def request (query : List Char) : Request :=
  { query, limit := 200, cwd := some shell.cwd, now := shell.now }

/-- `fuzzy_search_subset_into_in_dir` as the editor calls it. -/
def fuzzySearch (query : List Char) (candidates : List Nat) :
    Option (List Nat × List FuzzyMatch) :=
  searchLimited shell.lower shell.history (shell.request query) candidates

def allEntries : List Nat := shell.history.searchEntryIndices

/-! ## The candidate lists -/

def startHistorySearch (saved_line : List Char) : Option HistorySearch := do
  let candidates := shell.allEntries
  let (scratch, fuzzyMatches) ← shell.fuzzySearch [] candidates
  return {
    query := LineBuffer.new
    fuzzyMatches
    candidates := scratch
    scratch := candidates
    candidate_stack := []
    spare_candidates := []
    selected := 0
    saved_line }

/-- The longer query is searched within the candidates of the shorter one. -/
def narrow (search : HistorySearch) (prev_text : List Char) : Option HistorySearch := do
  let wider := search.candidates
  let (candidates, fuzzyMatches) ← shell.fuzzySearch search.query.buf wider
  return { search with
    candidates
    fuzzyMatches
    candidate_stack := (byteLen prev_text, wider) :: search.candidate_stack
    spare_candidates := search.spare_candidates.tail }

/-- `recycle_candidate_stack`, and a search of all entries. -/
def rebuild (search : HistorySearch) : Option HistorySearch := do
  let scratch := shell.allEntries
  let (candidates, fuzzyMatches) ← shell.fuzzySearch search.query.buf scratch
  -- the swap keeps all entries as the candidates
  return { search with
    candidates := scratch
    scratch := candidates
    fuzzyMatches
    candidate_stack := []
    spare_candidates := search.candidate_stack.map (·.2) ++ search.spare_candidates }

/-- The lists of longer queries are dropped from the stack. -/
def dropLonger (search : HistorySearch) : HistorySearch :=
  let longer := fun (row : Nat × List Nat) => decide (byteLen search.query.buf < row.1)
  { search with
    candidate_stack := search.candidate_stack.dropWhile longer
    spare_candidates := ((search.candidate_stack.takeWhile longer).map (·.2)).reverse ++
      search.spare_candidates }

/-- The shorter query is searched within its own candidates, if they are still
there. -/
def widen (search : HistorySearch) : Option HistorySearch :=
  let search := dropLonger search
  match search.candidate_stack with
  | [] => shell.rebuild search
  | (len, old_candidates) :: candidate_stack =>
    if len = byteLen search.query.buf then do
      let (scratch, fuzzyMatches) ← shell.fuzzySearch search.query.buf old_candidates
      return { search with
        candidates := old_candidates
        scratch
        fuzzyMatches
        candidate_stack
        spare_candidates := search.candidates :: search.spare_candidates }
    else shell.rebuild search

/-- The search that an edit calls for. -/
def research (search : HistorySearch) (prev_text : List Char) (prev_cursor : Nat) :
    Option HistorySearch :=
  let new_text := search.query.buf
  let at_end := prev_cursor = byteLen prev_text ∧ search.query.cursor = byteLen new_text
  if at_end ∧ byteLen prev_text < byteLen new_text ∧ prev_text <+: new_text then
    shell.narrow search prev_text
  else if at_end ∧ byteLen new_text < byteLen prev_text ∧ new_text <+: prev_text then
    shell.widen search
  else shell.rebuild search

def updateHistorySearch (search : HistorySearch) (prev_text : List Char) (prev_cursor : Nat) :
    Option HistorySearch :=
  (shell.research search prev_text prev_cursor).map fun updated => { updated with selected := 0 }

/-! ## Keys -/

/-- An edit of the query, and the search that follows it. -/
def editQuery (search : HistorySearch) (edit : LineBuffer → LineBuffer) :
    Option (HistoryAction × HistorySearch) := do
  let search' ← shell.updateHistorySearch { search with query := edit search.query }
    search.query.buf search.query.cursor
  return (.Continue, search')

/-- A motion in the query, without a search. -/
def moveQuery (search : HistorySearch) (move : LineBuffer → LineBuffer) :
    Option (HistoryAction × HistorySearch) :=
  some (.Continue, { search with query := move search.query })

def selectUp (search : HistorySearch) : Option (HistoryAction × HistorySearch) :=
  if 0 < search.selected then some (.Continue, { search with selected := search.selected - 1 })
  else some (.Continue, search)

def selectDown (search : HistorySearch) : Option (HistoryAction × HistorySearch) :=
  if search.selected + 1 < search.fuzzyMatches.length then
    some (.Continue, { search with selected := search.selected + 1 })
  else some (.Continue, search)

/-- The entry that `Enter` accepts. -/
def accept (search : HistorySearch) : Option (HistoryAction × HistorySearch) :=
  match search.fuzzyMatches[search.selected]? with
  | none => some (.Cancel, search)
  | some m => do
    let entry ← shell.history.entries[m.entry_idx]?
    return (.Accept entry.text, search)

/-- The arms of `handle_history_search_key` for characters, in their order. -/
def handleChar (search : HistorySearch) (c : Char) (ctrl alt : Bool) :
    Option (HistoryAction × HistorySearch) :=
  if ctrl ∧ c = 'c' then some (.Cancel, search)
  else if ctrl ∧ c = 'p' then selectUp search
  else if ctrl ∧ c = 'n' then selectDown search
  else if ctrl ∧ c = 'a' then moveQuery search LineBuffer.moveHome
  else if ctrl ∧ c = 'e' then moveQuery search LineBuffer.moveEnd
  else if alt ∧ c = 'b' then moveQuery search LineBuffer.moveWordLeft
  else if alt ∧ c = 'f' then moveQuery search LineBuffer.moveWordRight
  else if !ctrl ∧ alt ∧ c = 'd' then shell.editQuery search LineBuffer.killWordBack
  else if ctrl ∧ c = 'd' then shell.editQuery search LineBuffer.deleteForward
  else if ctrl ∧ c = 'u' then shell.editQuery search LineBuffer.killToStart
  else if ctrl ∧ c = 'k' then shell.editQuery search LineBuffer.killToEnd
  else if ctrl ∧ c = 'w' then shell.editQuery search LineBuffer.killWordBack
  else if ctrl ∧ c = 'y' then shell.editQuery search LineBuffer.yank
  else if !ctrl ∧ !alt then shell.editQuery search (LineBuffer.insertChar · c)
  else some (.Continue, search)

def handleHistorySearchKey (search : HistorySearch) (key : KeyEvent) :
    Option (HistoryAction × HistorySearch) :=
  match key.key with
  | .Char c => shell.handleChar search c key.mods.ctrl key.mods.alt
  | .Escape => some (.Cancel, search)
  | .Enter => shell.accept search
  | .Up => selectUp search
  | .Down => selectDown search
  | .Left =>
    moveQuery search (if key.mods.ctrl && !key.mods.alt then LineBuffer.moveWordLeft
      else LineBuffer.moveLeft)
  | .Right =>
    moveQuery search (if key.mods.ctrl && !key.mods.alt then LineBuffer.moveWordRight
      else LineBuffer.moveRight)
  | .Home => moveQuery search LineBuffer.moveHome
  | .End => moveQuery search LineBuffer.moveEnd
  | .Backspace => shell.editQuery search LineBuffer.deleteBack
  | .Delete =>
    shell.editQuery search (if key.mods.ctrl then LineBuffer.killWordBack
      else LineBuffer.deleteForward)
  | .Tab => some (.Continue, search)

/-- A key, or `handle_paste`. -/
def handle (search : HistorySearch) (event : SearchEvent) :
    Option (HistoryAction × HistorySearch) :=
  match event with
  | .key key => shell.handleHistorySearchKey search key
  | .paste text => shell.editQuery search (LineBuffer.insertStr · text)

end Shell

/-! ## Candidate lists -/

theorem byteLen_lt_of_prefix {short long} (h : short <+: long) :
    short = long ∨ byteLen short < byteLen long := by
  obtain ⟨more, rfl⟩ := h
  cases more with
  | nil => exact Or.inl (append_nil _).symm
  | cons c more =>
    refine Or.inr ?_
    have hsize := c.utf8Size_pos
    rw [byteLen_append, byteLen, byteLen, Utf8.encode_cons, length_append,
      String.length_utf8EncodeChar]
    omega

namespace Shell

variable (shell : Shell)

/-- A list that holds, in order, every entry that a query matches. -/
structure Complete (query : List Char) (candidates : List Nat) : Prop where
  valid : ∀ idx ∈ candidates, idx < shell.history.entries.length
  matching_eq : matching shell.lower shell.history query candidates =
    matching shell.lower shell.history query shell.allEntries

variable {shell} {query extended : List Char} {candidates : List Nat}

variable (shell) in
theorem complete_allEntries (query : List Char) : shell.Complete query shell.allEntries where
  valid := by
    intro idx hidx
    obtain ⟨latest, hlatest, rfl⟩ := mem_map.mp hidx
    exact shell.history.latest_valid latest (mem_reverse.mp hlatest)
  matching_eq := rfl

theorem matching_matching (h : query <+: extended) (candidates : List Nat) :
    matching shell.lower shell.history extended
        (matching shell.lower shell.history query candidates) =
      matching shell.lower shell.history extended candidates := by
  obtain ⟨suffix, rfl⟩ := h
  rw [matching, matching, matching, filter_filter]
  apply filter_congr
  intro idx _
  cases shell.history.entries[idx]? with
  | none => rfl
  | some entry =>
    simp only [Option.any_some]
    by_cases hmatch : History.Matches shell.lower (query ++ suffix) entry.text
    · simp [hmatch, hmatch.of_append]
    · simp [hmatch]

theorem Complete.longer (h : shell.Complete query candidates) (hextends : query <+: extended) :
    shell.Complete extended candidates where
  valid := h.valid
  matching_eq := by
    rw [← matching_matching hextends, h.matching_eq, matching_matching hextends]

theorem Complete.narrowed (h : shell.Complete query candidates) :
    shell.Complete query (matching shell.lower shell.history query candidates) where
  valid idx hidx := h.valid idx (mem_of_mem_filter hidx)
  matching_eq := by rw [matching_matching prefix_rfl, h.matching_eq]

/-- **A search of a complete list is a search of all entries.** -/
theorem Complete.fuzzySearch (h : shell.Complete query candidates) :
    ∃ found, shell.fuzzySearch query candidates =
        some (matching shell.lower shell.history query candidates, found) ∧
      shell.fuzzySearch query shell.allEntries =
        some (matching shell.lower shell.history query candidates, found) := by
  obtain ⟨found, hfound⟩ :=
    @History.searchLimited_isSome shell.lower _ (shell.request query) _ h.valid
  have hall := @History.searchLimited_eq shell.lower _ (shell.request query) _
    (shell.complete_allEntries query).valid
  have hsame := @History.searchLimited_eq shell.lower _ (shell.request query) _ h.valid
  have heq : matching shell.lower shell.history (shell.request query).query candidates =
      matching shell.lower shell.history (shell.request query).query shell.allEntries :=
    h.matching_eq
  refine ⟨found, hfound, ?_⟩
  rw [Shell.fuzzySearch, hall, ← heq, ← hsame]
  exact hfound

/-! ## The invariant -/

/-- What holds of a search whose query is `text`: the candidates and every list
of the stack are complete for a query that `text` extends. -/
structure Stacked (shell : Shell) (search : HistorySearch) (text : List Char) : Prop where
  candidates : shell.Complete text search.candidates
  sorted : search.candidate_stack.Pairwise fun upper lower => lower.1 < upper.1
  rows : ∀ row ∈ search.candidate_stack, row.1 < byteLen text ∧
    ∃ query, query <+: text ∧ byteLen query = row.1 ∧ shell.Complete query row.2

/-- The results are those of a search of all entries. -/
def Fresh (shell : Shell) (search : HistorySearch) : Prop :=
  ∃ matched, shell.fuzzySearch search.query.buf shell.allEntries =
    some (matched, search.fuzzyMatches)

/-- What an update ends with. -/
structure Updated (shell : Shell) (line : LineBuffer) (updated : HistorySearch) : Prop where
  query : updated.query = line
  stacked : shell.Stacked updated line.buf
  fresh : shell.Fresh updated

variable {search : HistorySearch} {text : List Char}

theorem rebuild_updated (search : HistorySearch) :
    ∃ updated, shell.rebuild search = some updated ∧ shell.Updated search.query updated := by
  have hall := shell.complete_allEntries search.query.buf
  obtain ⟨found, hfound, _⟩ := hall.fuzzySearch
  rw [rebuild, hfound]
  refine ⟨_, rfl, rfl, ⟨hall, List.Pairwise.nil, ?_⟩, _, hfound⟩
  intro row hrow
  cases hrow

theorem narrow_updated (h : shell.Stacked search text) (hlen : byteLen text < byteLen search.query.buf)
    (hextends : text <+: search.query.buf) :
    ∃ updated, shell.narrow search text = some updated ∧ shell.Updated search.query updated := by
  have hcandidates := h.candidates.longer hextends
  obtain ⟨found, hfound, hall⟩ := hcandidates.fuzzySearch
  rw [narrow, hfound]
  refine ⟨_, rfl, rfl, ⟨hcandidates.narrowed, ?_, ?_⟩, _, hall⟩
  · exact pairwise_cons.mpr ⟨fun row hrow => (h.rows row hrow).1, h.sorted⟩
  · intro row hrow
    rcases mem_cons.mp hrow with rfl | hold
    · exact ⟨hlen, text, hextends, rfl, h.candidates⟩
    · obtain ⟨hrowlen, query, hquery, hbytes, hcomplete⟩ := h.rows row hold
      exact ⟨Nat.lt_trans hrowlen hlen, query, hquery.trans hextends, hbytes, hcomplete⟩

theorem dropLonger_rows (h : shell.Stacked search text) (hextends : search.query.buf <+: text) :
    ∀ row ∈ (dropLonger search).candidate_stack, row.1 ≤ byteLen search.query.buf ∧
      ∃ query, query <+: search.query.buf ∧ byteLen query = row.1 ∧
        shell.Complete query row.2 := by
  have hsub : (dropLonger search).candidate_stack.Sublist search.candidate_stack :=
    dropWhile_sublist _
  have hsorted := h.sorted.sublist hsub
  have hle : ∀ row ∈ (dropLonger search).candidate_stack, row.1 ≤ byteLen search.query.buf := by
    cases hstack : (dropLonger search).candidate_stack with
    | nil => simp
    | cons top rest =>
      have htop : ¬ byteLen search.query.buf < top.1 := by
        have hhead := head?_dropWhile_not
          (fun row : Nat × List Nat => decide (byteLen search.query.buf < row.1))
          search.candidate_stack
        rw [show search.candidate_stack.dropWhile _ = top :: rest from hstack] at hhead
        exact of_decide_eq_false hhead
      rw [hstack] at hsorted
      intro row hrow
      rcases mem_cons.mp hrow with rfl | hrest
      · exact Nat.not_lt.mp htop
      · have hlt := (pairwise_cons.mp hsorted).1 row hrest
        omega
  intro row hrow
  obtain ⟨_, query, hquery, hbytes, hcomplete⟩ := h.rows row (hsub.subset hrow)
  refine ⟨hle row hrow, query, ?_, hbytes, hcomplete⟩
  rcases prefix_or_prefix_of_prefix hquery hextends with hshort | hlong
  · exact hshort
  · rcases byteLen_lt_of_prefix hlong with heq | hlt
    · exact heq ▸ prefix_rfl
    · have hrowle := hle row hrow
      omega

theorem widen_updated (h : shell.Stacked search text) (hextends : search.query.buf <+: text) :
    ∃ updated, shell.widen search = some updated ∧ shell.Updated search.query updated := by
  have hrows := dropLonger_rows h hextends
  have hsorted : (dropLonger search).candidate_stack.Pairwise fun upper lower => lower.1 < upper.1 :=
    h.sorted.sublist (dropWhile_sublist _)
  cases hstack : (dropLonger search).candidate_stack with
  | nil =>
    have hwiden : shell.widen search = shell.rebuild (dropLonger search) := by
      simp only [widen, hstack]
    rw [hwiden]
    exact rebuild_updated (dropLonger search)
  | cons top rest =>
    obtain ⟨len, old_candidates⟩ := top
    by_cases hlen : len = byteLen search.query.buf
    · -- the top of the stack is for the text itself
      rw [hstack] at hrows hsorted
      obtain ⟨_, query, hquery, hbytes, hcomplete⟩ := hrows (len, old_candidates) (by simp)
      have hsame : query = search.query.buf := by
        rcases byteLen_lt_of_prefix hquery with heq | hlt
        · exact heq
        · simp only at hbytes
          omega
      subst hsame
      obtain ⟨found, hfound, hall⟩ := hcomplete.fuzzySearch
      have hwiden : shell.widen search = some {
          query := search.query
          fuzzyMatches := found
          candidates := old_candidates
          scratch := matching shell.lower shell.history search.query.buf old_candidates
          candidate_stack := rest
          spare_candidates := search.candidates :: (dropLonger search).spare_candidates
          selected := search.selected
          saved_line := search.saved_line } := by
        simp only [widen, hstack]
        refine (if_pos hlen).trans ?_
        exact (congrArg (Option.bind · _) hfound).trans rfl
      rw [hwiden]
      refine ⟨_, rfl, rfl, ⟨hcomplete, (pairwise_cons.mp hsorted).2, ?_⟩, _, hall⟩
      intro row hrow
      have hrowlen := (pairwise_cons.mp hsorted).1 row hrow
      obtain ⟨_, hquery⟩ := hrows row (mem_cons_of_mem _ hrow)
      exact ⟨hlen ▸ hrowlen, hquery⟩
    · have hwiden : shell.widen search = shell.rebuild (dropLonger search) := by
        simp only [widen, hstack]
        exact if_neg hlen
      rw [hwiden]
      exact rebuild_updated (dropLonger search)

/-- **One edit**: whatever became of the text, the results are fresh, and the
candidate lists are complete again. -/
theorem updateHistorySearch_updated {prev_text} (h : shell.Stacked search prev_text)
    (prev_cursor : Nat) :
    ∃ updated, shell.updateHistorySearch search prev_text prev_cursor = some updated ∧
      shell.Updated search.query updated := by
  have hresearch : ∃ updated, shell.research search prev_text prev_cursor = some updated ∧
      shell.Updated search.query updated := by
    simp only [research]
    split
    · rename_i happend
      exact narrow_updated h happend.2.1 happend.2.2
    split
    · rename_i hdelete
      exact widen_updated h hdelete.2.2
    · exact rebuild_updated search
  obtain ⟨updated, hupdated, hquery, hstacked, hfresh⟩ := hresearch
  rw [updateHistorySearch, hupdated]
  exact ⟨_, rfl, hquery, ⟨hstacked.candidates, hstacked.sorted, hstacked.rows⟩, hfresh⟩

/-! ## Runs -/

/-- A search that is open: it was started, and edited any number of times. -/
inductive Open (shell : Shell) (saved_line : List Char) : HistorySearch → Prop where
  | start {search : HistorySearch} (h : shell.startHistorySearch saved_line = some search) :
      Open shell saved_line search
  | edit {search search' : HistorySearch} (h : Open shell saved_line search)
      (event : SearchEvent) (hstep : shell.handle search event = some (.Continue, search')) :
      Open shell saved_line search'

/-- What holds of a search that is open. -/
structure Good (shell : Shell) (search : HistorySearch) : Prop where
  stacked : shell.Stacked search search.query.buf
  fresh : shell.Fresh search

variable (shell) in
theorem start_good (saved_line : List Char) :
    ∃ search, shell.startHistorySearch saved_line = some search ∧ shell.Good search := by
  have hall := shell.complete_allEntries []
  obtain ⟨found, hfound, _⟩ := hall.fuzzySearch
  rw [startHistorySearch, hfound]
  refine ⟨_, rfl, ⟨hall.narrowed, List.Pairwise.nil, ?_⟩, _, hfound⟩
  intro row hrow
  cases hrow

theorem editQuery_good (h : shell.Good search) (edit : LineBuffer → LineBuffer) :
    ∃ search', shell.editQuery search edit = some (.Continue, search') ∧ shell.Good search' := by
  have hstacked : shell.Stacked { search with query := edit search.query } search.query.buf :=
    ⟨h.stacked.candidates, h.stacked.sorted, h.stacked.rows⟩
  obtain ⟨search', hupdate, hquery, hstacked', hfresh⟩ :=
    updateHistorySearch_updated hstacked search.query.cursor
  rw [editQuery, hupdate]
  exact ⟨search', rfl, hquery ▸ hstacked', hfresh⟩

theorem moveQuery_good (h : shell.Good search) (move : LineBuffer → LineBuffer)
    (hbuf : (move search.query).buf = search.query.buf) :
    shell.Good { search with query := move search.query } where
  stacked := by
    show shell.Stacked _ (move search.query).buf
    rw [hbuf]
    exact ⟨h.stacked.candidates, h.stacked.sorted, h.stacked.rows⟩
  fresh := by
    show ∃ matched, shell.fuzzySearch (move search.query).buf shell.allEntries = _
    rw [hbuf]
    exact h.fresh

theorem select_good (h : shell.Good search) (selected : Nat) :
    shell.Good { search with selected } where
  stacked := ⟨h.stacked.candidates, h.stacked.sorted, h.stacked.rows⟩
  fresh := h.fresh

/-- An event keeps an open search good, or leaves the search. -/
def Keeps (shell : Shell) (result : Option (HistoryAction × HistorySearch)) : Prop :=
  ∃ action search, result = some (action, search) ∧ (action = .Continue → shell.Good search)

theorem keeps_ite {p : Prop} [Decidable p] {a b}
    (ha : shell.Keeps a) (hb : shell.Keeps b) : shell.Keeps (if p then a else b) := by
  split
  · exact ha
  · exact hb

theorem accept_keeps (h : shell.Good search) : shell.Keeps (shell.accept search) := by
  obtain ⟨matched, hfresh⟩ := h.fresh
  rw [accept]
  cases hmatch : search.fuzzyMatches[search.selected]? with
  | none => exact ⟨_, _, rfl, fun hcontinue => by cases hcontinue⟩
  | some m =>
    have hentry := History.searchLimited_entry
      (shell.complete_allEntries search.query.buf).valid hfresh
      (mem_of_getElem? hmatch)
    simp only [getElem?_eq_getElem hentry]
    exact ⟨_, _, rfl, fun hcontinue => by cases hcontinue⟩

/-- **Every event** leaves the search, or a good one. -/
theorem handle_keeps (h : shell.Good search) (event : SearchEvent) :
    shell.Keeps (shell.handle search event) := by
  have hedit : ∀ edit, shell.Keeps (shell.editQuery search edit) := by
    intro edit
    obtain ⟨search', hresult, hgood⟩ := editQuery_good h edit
    exact ⟨_, _, hresult, fun _ => hgood⟩
  have hmove : ∀ move : LineBuffer → LineBuffer, (move search.query).buf = search.query.buf →
      shell.Keeps (moveQuery search move) :=
    fun move hbuf => ⟨_, _, rfl, fun _ => moveQuery_good h move hbuf⟩
  have hleave : shell.Keeps (some (.Cancel, search)) :=
    ⟨_, _, rfl, fun hcontinue => by cases hcontinue⟩
  have hstay : shell.Keeps (some (.Continue, search)) := ⟨_, _, rfl, fun _ => h⟩
  have hup : shell.Keeps (selectUp search) := by
    rw [selectUp]
    split
    · exact ⟨_, _, rfl, fun _ => select_good h _⟩
    · exact hstay
  have hdown : shell.Keeps (selectDown search) := by
    rw [selectDown]
    split
    · exact ⟨_, _, rfl, fun _ => select_good h _⟩
    · exact hstay
  have hchar : ∀ c ctrl alt, shell.Keeps (shell.handleChar search c ctrl alt) := by
    intro c ctrl alt
    rw [handleChar]
    -- one arm after the other, in the order of the definition
    exact keeps_ite hleave <| keeps_ite hup <| keeps_ite hdown <|
      keeps_ite (hmove _ (LineBuffer.buf_moveHome _)) <|
      keeps_ite (hmove _ (LineBuffer.buf_moveEnd _)) <|
      keeps_ite (hmove _ (LineBuffer.buf_moveWordLeft _)) <|
      keeps_ite (hmove _ (LineBuffer.buf_moveWordRight _)) <|
      keeps_ite (hedit _) <| keeps_ite (hedit _) <| keeps_ite (hedit _) <| keeps_ite (hedit _) <|
      keeps_ite (hedit _) <| keeps_ite (hedit _) <| keeps_ite (hedit _) hstay
  cases event with
  | paste text => exact hedit (LineBuffer.insertStr · text)
  | key key =>
    show shell.Keeps (shell.handleHistorySearchKey search key)
    rw [handleHistorySearchKey]
    cases key.key with
    | Char c => exact hchar c _ _
    | Escape => exact hleave
    | Enter => exact accept_keeps h
    | Up => exact hup
    | Down => exact hdown
    | Left | Right => exact hmove _ (by split <;> simp)
    | Home => exact hmove _ (LineBuffer.buf_moveHome _)
    | End => exact hmove _ (LineBuffer.buf_moveEnd _)
    | Backspace => exact hedit _
    | Delete => exact hedit _
    | Tab => exact hstay

/-- **Incremental search is a fresh search**: as long as the search is open, its
results are those of a search of all entries for the query, and no key or paste
fails. It rests on longer queries matching less. -/
theorem open_search_fresh (shell : Shell) (saved_line : List Char) :
    (∃ search, shell.startHistorySearch saved_line = some search) ∧
    (∀ search, Open shell saved_line search →
      (∃ matched, shell.fuzzySearch search.query.buf shell.allEntries =
        some (matched, search.fuzzyMatches)) ∧
      ∀ event, (shell.handle search event).isSome) ∧
    ∀ (query suffix : List Char) (entry : History.Entry),
      (rankEntry shell.lower (shell.request (query ++ suffix)) none entry).1.isSome →
        (rankEntry shell.lower (shell.request query) none entry).1.isSome := by
  have hgood : ∀ search, Open shell saved_line search → shell.Good search := by
    intro search hopen
    induction hopen with
    | start h =>
      obtain ⟨search, hstart, hgood⟩ := shell.start_good saved_line
      rw [hstart] at h
      cases h
      exact hgood
    | edit _ event hstep ih =>
      obtain ⟨action, search, hresult, hcontinue⟩ := handle_keeps ih event
      rw [hresult] at hstep
      cases hstep
      exact hcontinue rfl
  refine ⟨?_, ?_, ?_⟩
  · obtain ⟨search, hstart, _⟩ := shell.start_good saved_line
    exact ⟨search, hstart⟩
  · intro search hopen
    refine ⟨(hgood search hopen).fresh, ?_⟩
    intro event
    obtain ⟨_, _, hresult, _⟩ := handle_keeps (hgood search hopen) event
    rw [hresult]
    rfl
  · intro query suffix entry hmatch
    have hnone : ∀ request : Request, History.Lowered shell.lower request none :=
      fun _ => Or.inl rfl
    rw [(History.rankEntry_eq (hnone _) entry).1, History.rankText_isSome (hnone _)] at hmatch
    rw [(History.rankEntry_eq (hnone _) entry).1, History.rankText_isSome (hnone _)]
    exact hmatch.of_append

end Shell

end Ish.Editor
