import Ish.Index.Batches
import Ish.Scan.Events

/-!
# Receiving a scan

The items of the events that are received, as a scan sends them, and what they
make of the index as long as none of them is fatal: each entry has its node, and
the directories that failed, were excluded or were finished as incomplete are
spoilt.
-/

namespace Ish.Index

open Ish.Lib.Forest List Option
open Ish.Scan (Introduced introductions)

/-- One message of an event. -/
inductive Item where
  | entry (entry : Entry)
  | finish (directory : DirectoryToken) (complete : Bool)
  | failed (directory : DirectoryToken)
  | excluded (directory : DirectoryToken)

def ScanEvent.items : ScanEvent → List Item
  | .Entries batch => (named batch.names batch.entries).map .entry
  | .DirectoryFinished directory complete => [.finish directory complete]
  | .DirectoriesFinished directories => directories.map fun directory =>
    .finish directory.1 directory.2
  | .DirectoryExcluded directory _ => [.excluded directory]
  | .DirectoryFailed directory _ => [.failed directory]
  | .Started .. | .Failed _ | .Cancelled | .Finished => []

/-- The items of what is received before the end. -/
def itemsOf : List Received → List Item
  | [] | .event .Finished _ :: _ | .Disconnected :: _ => []
  | .event event _ :: received => event.items ++ itemsOf received
  | .Timeout :: received => itemsOf received

namespace Item

def asEntry : Item → Option Entry
  | .entry e => some e
  | _ => none

/-- The directory an item says something bad of. -/
def blames : Item → Option DirectoryToken
  | .finish directory false | .failed directory | .excluded directory => some directory
  | _ => none

/-- The state of an entry in the model of the scan. -/
def forgetState : NodeStatus → Scan.NodeStatus
  | .Complete => .Complete
  | .Excluded _ => .Excluded
  | .Scanning | .Incomplete | .Stale => .Incomplete

/-- An item in the model of the scan. -/
def forget : Item → Scan.Item
  | .entry e => .entry ⟨e.2.parent, e.2.directory_token, forgetState e.2.state⟩
  | .finish directory complete => .finish directory complete
  | .failed directory => .notice (.DirectoryFailed directory)
  | .excluded directory => .notice (.DirectoryExcluded directory)

theorem blames_names {item : Item} (h : item.blames = some token) :
    item.forget.names = [token] := by
  cases item with
  | entry e => cases h
  | finish directory complete =>
    cases complete with
    | true => cases h
    | false =>
      cases h
      rfl
  | failed directory | excluded directory =>
    cases h
    rfl

end Item

def entriesOf (items : List Item) : List Entry := items.filterMap Item.asEntry

theorem entriesOf_append (items more : List Item) :
    entriesOf (items ++ more) = entriesOf items ++ entriesOf more :=
  filterMap_append ..

@[simp] theorem entriesOf_entries (es : List Entry) : entriesOf (es.map .entry) = es := by
  rw [entriesOf, filterMap_map]
  exact filterMap_some

theorem tokens_entriesOf (items : List Item) :
    tokens (entriesOf items) = [0] ++ introductions (items.map Item.forget) := by
  rw [tokens, singleton_append]
  congr 1
  induction items with
  | nil => rfl
  | cons item items ih =>
    rw [map_cons, introductions, flatMap_cons, ← introductions, ← ih]
    cases item with
    | entry e =>
      have hcons : entriesOf (.entry e :: items) = e :: entriesOf items := rfl
      rw [hcons, filterMap_cons]
      cases htoken : e.2.directory_token <;> simp [Item.forget, Scan.Item.introduces, htoken]
    | finish directory complete => rfl
    | failed directory => rfl
    | excluded directory => rfl

theorem exists_introduces (h : token ∈ tokens es) :
    ∃ n, Introduces es token n := by
  rcases mem_cons.mp h with rfl | h
  · exact ⟨0, .inl ⟨rfl, rfl⟩⟩
  · obtain ⟨e, he, htoken⟩ := mem_filterMap.mp h
    obtain ⟨i, hi⟩ := mem_iff_getElem?.mp he
    exact ⟨i + 1, .inr ⟨i, e, hi, htoken, rfl⟩⟩

theorem Introduces.of_append {es more token n}
    (h : Introduces (es ++ more) token n) (hnodup : (tokens (es ++ more)).Nodup)
    (hknown : token ∈ tokens es) : Introduces es token n := by
  have hsplit : tokens (es ++ more) = tokens es ++ more.filterMap (·.2.directory_token) := by
    rw [tokens, filterMap_append]
    rfl
  rcases h with hroot | ⟨i, e, he, htoken, rfl⟩
  · exact .inl hroot
  · rcases Nat.lt_or_ge i es.length with hlt | hge
    · rw [getElem?_append_left hlt] at he
      exact .inr ⟨i, e, he, htoken, rfl⟩
    · rw [getElem?_append_right hge] at he
      have hmem : token ∈ more.filterMap (·.2.directory_token) :=
        mem_filterMap.mpr ⟨e, mem_of_getElem? he, htoken⟩
      rw [hsplit, nodup_append] at hnodup
      exact absurd rfl (hnodup.2.2 token hknown token hmem)

/-! ## What stays spoilt -/

namespace Tree

variable {t t' t'' : Tree}

/-- What is spoilt stays so. -/
def Keeps (t t' : Tree) : Prop := ∀ n, t.Spoilt n → t'.Spoilt n

theorem Keeps.trans (h : Keeps t t') (h' : Keeps t' t'') : Keeps t t'' :=
  fun n hn => h' n (h n hn)

theorem keeps_modify
    (hf : ∀ r, r.state.Spoilt → (f r).state.Spoilt) (t : Tree) (id : NodeId) :
    Keeps t (t.modify id f) := by
  rintro n ⟨r, hr, hstate⟩
  rw [Spoilt, record_modify]
  split
  · exact ⟨f r, by rw [hr, map_some], hf r hstate⟩
  · exact ⟨r, hr, hstate⟩

theorem keeps_walkUp
    (hf : ∀ r, r.state.Spoilt → (f r).state.Spoilt) (fuel : Nat) (current : Option NodeId)
    (t : Tree) : Keeps t (t.walkUp f fuel current) := by
  induction fuel generalizing current t with
  | zero => exact fun _ hn => hn
  | succ fuel ih =>
    cases current with
    | none => exact fun _ hn => hn
    | some node =>
      rw [walkUp]
      split
      · exact fun _ hn => hn
      · exact (keeps_modify hf t node).trans (ih _ _)

theorem keeps_mark (t : Tree) (id : NodeId) : Keeps t (t.mark_incomplete_to_root id) :=
  keeps_walkUp (fun r _ => incomplete_spoilt r) _ _ _

theorem keeps_add (t : Tree) (id : NodeId) (apparent allocated : UInt64) :
    Keeps t (t.add_to_ancestors id apparent allocated).2 := by
  rw [Tree.add_to_ancestors]
  split
  · exact fun _ hn => hn
  · refine keeps_walkUp ?_ _ _ _
    exact fun _ hr => hr
  · exact keeps_walkUp (fun r _ => overflowed_spoilt r) _ _ _

end Tree

namespace TokenTree

variable {x x' : TokenTree} {es : List Entry} {run : Option Run}

theorem keeps_finish (x : TokenTree) (run : Run) : Tree.Keeps x.tree (x.finish run).tree := by
  rw [finish]
  dsimp only
  generalize htree : (if run.problem = true then x.tree.mark_incomplete_to_root run.parent
    else x.tree) = t
  have hmarked : Tree.Keeps x.tree t := by
    rw [← htree]
    split
    · exact Tree.keeps_mark _ _
    · exact fun _ hn => hn
  refine hmarked.trans ?_
  have hadd := t.keeps_add run.parent run.apparent run.allocated
  generalize t.add_to_ancestors _ _ _ = added at hadd
  obtain ⟨fits, t'⟩ := added
  split
  · rename_i heq
    cases heq
    exact hadd
  · rename_i heq
    cases heq
    exact hadd.trans (Tree.keeps_mark _ _)
  · exact Tree.keeps_mark _ _

theorem keeps_enter
    (henter : enter run parent x = .ok current x') : Tree.Keeps x.tree x'.tree := by
  cases run with
  | none =>
    cases henter
    exact fun _ hn => hn
  | some before =>
    rw [enter] at henter
    split at henter
    · cases henter
      exact keeps_finish x before
    · cases henter
      exact fun _ hn => hn

theorem Follows.keeps_applyEntry (h : x.Follows es run) (hround : TokenTree.applyEntry names run e x = .ok current x') :
    Tree.Keeps x.tree x'.tree := by
  rw [TokenTree.applyEntry, Lib.EState.bind_ok Lib.EState.get_run] at hround
  cases hparent : x.node e.parent with
  | none => simp only [hparent] at hround; cases hround
  | some parent =>
    simp only [hparent] at hround
    obtain ⟨entered, y, henter, hround⟩ := Lib.EState.bind_eq_ok.mp hround
    obtain ⟨_, z, hinsert, hdone⟩ := Lib.EState.bind_eq_ok.mp hround
    cases hdone
    refine (keeps_enter henter).trans ?_
    obtain ⟨hy, -, -⟩ := h.enter (h.holds.node_lt hparent) henter
    obtain ⟨name, id, tree, -, happend, rfl⟩ := insert_eq_ok hinsert
    obtain ⟨-, pr, happ⟩ := Tree.append_eq_some hy.holds.linked happend
    rw [link_tree]
    exact fun n hn => happ.spoilt hn

/-- **A batch** appends its entries; what was spoilt stays so. -/
theorem Follows.keeps_applyEntries
    (h : x.Follows es run) (hok : TokenTree.applyEntries names entries run x = .ok () x')
    (hnodup : (tokens (es ++ named names entries)).Nodup) : Tree.Keeps x.tree x'.tree := by
  induction entries generalizing x es run with
  | nil =>
    cases run with
    | none =>
      cases hok
      exact fun _ hn => hn
    | some current =>
      cases hok
      exact keeps_finish x current
  | cons e entries ih =>
    rw [TokenTree.applyEntries] at hok
    obtain ⟨current, y, hround, hok⟩ := Lib.EState.bind_eq_ok.mp hok
    obtain ⟨name, hname, hy⟩ := h.applyEntry hround
    have hcons : named names (e :: entries) = (name, e) :: named names entries := by
      rw [named, map_cons, hname]
      rfl
    rw [hcons, append_cons] at hnodup
    exact (h.keeps_applyEntry hround).trans
      (ih (hy (hnodup.sublist (tokens_sublist _ _))) hok hnodup)

end TokenTree

/-! ## Finishing a directory -/

namespace Tree

variable {t : Tree} {es : List Entry} {node : NodeId} {r : NodeRecord}

theorem set_state_shape (t : Tree) (id : NodeId) (state : NodeStatus) :
    SameShape t (t.set_state id state) := by
  refine sameShape_modify ?_ t id
  intro r
  rfl

theorem record_complete (t : Tree) (node n : NodeId) :
    (t.set_state node .Complete).record n = t.record n ∨
    n = node ∧ (t.set_state node .Complete).record n =
      (t.record n).map fun r => { r with state := .Complete } := by
  rw [set_state, record_modify]
  split
  · rename_i heq
    exact .inr ⟨heq.symm, rfl⟩
  · exact .inl rfl

theorem keeps_complete (hr : t.record node = some r) (hstate : r.state = .Scanning) :
    Keeps t (t.set_state node .Complete) := by
  rintro n ⟨r', hr', hspoilt⟩
  rcases t.record_complete node n with hsame | ⟨rfl, -⟩
  · exact ⟨r', hsame.trans hr', hspoilt⟩
  · rw [hr, some.injEq] at hr'
    exact absurd (hr' ▸ hstate) hspoilt.1

/-- **A finish that completes** a directory leaves the other nodes as they are. -/
theorem Judged.complete (h : t.Judged es none) (hr : t.record node = some r)
    (hstate : r.state = .Scanning) : (t.set_state node .Complete).Judged es none := by
  have hshape := t.set_state_shape node .Complete
  have hkeeps := keeps_complete hr hstate
  refine ⟨fun i e he hspoilt => hkeeps _ (h.sent i e he hspoilt), ?_, ?_⟩
  · intro n r' p hr' hne hp a ha
    rw [doubtful_none]
    rcases t.record_complete node n with hsame | ⟨-, hmap⟩
    · exact hkeeps a (doubtful_none.mp
        (h.marked n r' p (hsame ▸ hr') hne hp a (hshape.above.mp ha)))
    · rw [hr', eq_comm, map_eq_some_iff] at hmap
      obtain ⟨before, -, rfl⟩ := hmap
      exact absurd rfl hne
  · intro m d r' hr'
    rw [doubtful_none, hshape.below]
    rcases t.record_complete node d with hsame | ⟨-, hmap⟩
    · exact (h.totals m d r' (hsame ▸ hr')).imp_left fun hd => hkeeps d (doubtful_none.mp hd)
    · rw [hr', eq_comm, map_eq_some_iff] at hmap
      obtain ⟨before, hbefore, rfl⟩ := hmap
      refine (h.totals m d before hbefore).imp (fun hd => hkeeps d (doubtful_none.mp hd)) ?_
      intro htotal
      cases m <;> exact htotal

end Tree

namespace TokenTree

variable {x : TokenTree} {es : List Entry} {directory : DirectoryToken} {n : NodeId}

theorem Follows.complete {node r} (h : x.Follows es none)
    (hr : x.tree.record node = some r) (hstate : r.state = .Scanning) :
    ({ x with tree := x.tree.set_state node .Complete } : TokenTree).Follows es none :=
  ⟨h.holds.of_shape (x.tree.set_state_shape node .Complete), h.judged.complete hr hstate, nofun⟩

/-- **A finished directory** is spoilt if it is not complete. -/
theorem Follows.finish_directory (h : x.Follows es none) (hnode : x.node directory = some n)
    (complete : Bool) :
    (x.finish_directory directory complete).Follows es none ∧
      Tree.Keeps x.tree (x.finish_directory directory complete).tree ∧
      (complete = false → (x.finish_directory directory complete).tree.Spoilt n) := by
  rw [TokenTree.finish_directory, hnode]
  have hn := h.holds.node_lt hnode
  cases complete with
  | false =>
    obtain ⟨hworse, hspoilt⟩ := Tree.mark_worsens h.holds.linked hn
    exact ⟨h.worsen hworse nofun, fun _ => hworse.spoilt, fun _ => hspoilt n (.refl n)⟩
  | true =>
    obtain ⟨r, hr⟩ := x.tree.exists_record hn
    simp only [hr, map_some, some.injEq, if_true]
    split
    · rename_i hstate
      exact ⟨h.complete hr hstate, Tree.keeps_complete hr hstate, nofun⟩
    · exact ⟨h, fun _ hn => hn, nofun⟩

end TokenTree

/-! ## Events -/

/-- What is known between two events, as long as none was fatal. -/
structure Building.Follows (items : List Item) (b : Building) : Prop where
  index : b.index.Follows (entriesOf items) none
  blamed : ∀ item ∈ items, ∀ token, item.blames = some token → ∀ n,
    Introduces (entriesOf items) token n → b.index.tree.Spoilt n

/-- The items name directories that are introduced before them, once. -/
structure Announced (items : List Item) : Prop where
  introduced : Introduced [0] (items.map Item.forget)
  once : (tokens (entriesOf items)).Nodup

namespace Announced

variable {items more : List Item}

theorem of_append (h : Announced (items ++ more)) : Announced items := by
  refine ⟨?_, ?_⟩
  · have hall := h.introduced
    rw [map_append] at hall
    exact hall.of_append
  · have honce := h.once
    rw [entriesOf_append] at honce
    exact honce.sublist (tokens_sublist _ _)

theorem known (h : Announced (items ++ item :: more)) {token : DirectoryToken}
    (htoken : token ∈ item.forget.names) : token ∈ tokens (entriesOf items) := by
  have hall := h.introduced
  rw [map_append, map_cons] at hall
  rw [tokens_entriesOf]
  exact hall.split token htoken

theorem blamed_known {item : Item} (h : Announced items) (hitem : item ∈ items) (htoken : item.blames = some token) :
    token ∈ tokens (entriesOf items) := by
  obtain ⟨before, after, rfl⟩ := append_of_mem hitem
  have hknown := h.known (by rw [Item.blames_names htoken]; exact mem_singleton_self token)
  rw [entriesOf_append]
  exact (tokens_sublist _ _).subset hknown

end Announced

namespace Building

variable {b : Building} {items more : List Item}

@[simp] theorem fail_fatal (b : Building) (message : String) :
    (b.fail message).fatal ≠ none := nofun

section

variable (h : b.Follows items)
include h

theorem Follows.notice (hentry : item.asEntry = none) (hx : x.Follows (entriesOf items) none)
    (hkeeps : Tree.Keeps b.index.tree x.tree)
    (hblames : ∀ token, item.blames = some token → ∀ n, Introduces (entriesOf items) token n →
      x.tree.Spoilt n) : ({ b with index := x } : Building).Follows (items ++ [item]) := by
  have hentries : entriesOf (items ++ [item]) = entriesOf items := by
    rw [entriesOf_append, entriesOf, entriesOf, filterMap_cons_none hentry,
      filterMap_nil, append_nil]
  refine ⟨hentries ▸ hx, ?_⟩
  rw [hentries]
  intro other hother token htoken n hn
  rcases mem_append.mp hother with hmem | hmem
  · exact hkeeps n (h.blamed other hmem token htoken n hn)
  · obtain rfl := mem_singleton.mp hmem
    exact hblames token htoken n hn

theorem Follows.exists_node
    (hknown : token ∈ tokens (entriesOf items)) : ∃ n, b.index.node token = some n := by
  obtain ⟨n, hn⟩ := exists_introduces hknown
  exact ⟨n, (h.index.holds.node token n).mpr hn⟩

theorem Follows.node_eq
    (hnode : b.index.node token = some n) (hn : Introduces (entriesOf items) token n') :
    n' = n := by
  rw [← h.index.holds.node, hnode, some.injEq] at hn
  exact hn.symm

theorem Follows.finish_directory (directory : DirectoryToken × Bool)
    (hitems : Announced (items ++ [.finish directory.1 directory.2])) :
    (b.finish_directory directory).Follows (items ++ [.finish directory.1 directory.2]) := by
  obtain ⟨token, complete⟩ := directory
  obtain ⟨node, hnode⟩ := h.exists_node (hitems.known (mem_singleton_self token))
  obtain ⟨hx, hkeeps, hspoilt⟩ := h.index.finish_directory hnode complete
  refine h.notice rfl hx hkeeps fun blamed hblamed n hn => ?_
  cases complete with
  | true => cases hblamed
  | false =>
    cases hblamed
    exact h.node_eq hnode hn ▸ hspoilt rfl

theorem Follows.finish_directories {directories : List (DirectoryToken × Bool)}
    (hitems : Announced (items ++
      directories.map fun directory => Item.finish directory.1 directory.2)) :
    (directories.foldl Building.finish_directory b).Follows
      (items ++ directories.map fun directory => .finish directory.1 directory.2) := by
  induction directories generalizing b items with
  | nil => simpa using h
  | cons directory directories ih =>
    rw [map_cons, append_cons] at hitems ⊢
    exact ih (h.finish_directory directory hitems.of_append) hitems

theorem Follows.apply_batch
    (hok : TokenTree.apply_batch batch b.index = .ok () x)
    (hitems : Announced (items ++ (named batch.names batch.entries).map .entry)) :
    ({ b with index := x } : Building).Follows
      (items ++ (named batch.names batch.entries).map .entry) := by
  have hnodup := hitems.once
  have hentries : entriesOf (items ++ (named batch.names batch.entries).map .entry) =
      entriesOf items ++ named batch.names batch.entries := by
    rw [entriesOf_append, entriesOf_entries]
  rw [hentries] at hnodup
  have hkeeps := h.index.keeps_applyEntries hok hnodup
  refine ⟨hentries ▸ h.index.apply_batch hok hnodup, ?_⟩
  rw [hentries]
  intro item hitem token htoken n hn
  rcases mem_append.mp hitem with hmem | hmem
  · have hknown := hitems.of_append.blamed_known hmem htoken
    exact hkeeps n (h.blamed item hmem token htoken n (hn.of_append hnodup hknown))
  · obtain ⟨e, -, rfl⟩ := mem_map.mp hmem
    cases htoken

theorem Follows.exclude (hnode : b.index.node directory = some n) :
    (b.handle (.DirectoryExcluded directory reason) none).Follows (items ++ [.excluded directory]) := by
  obtain ⟨hworse, hspoilt⟩ := Tree.exclude_worsens reason h.index.holds.linked
    (h.index.holds.node_lt hnode)
  rw [handle]
  simp only [hnode]
  refine h.notice rfl (h.index.worsen hworse nofun) (fun _ => hworse.spoilt) ?_
  rintro _ ⟨⟩ n' hn
  exact hspoilt n' (h.node_eq hnode hn ▸ .refl _)

theorem Follows.mark
    (hnode : b.index.node directory = some n) :
    (b.mark_incomplete_to_root n).Follows (items ++ [.failed directory]) := by
  obtain ⟨hworse, hspoilt⟩ := Tree.mark_worsens h.index.holds.linked (h.index.holds.node_lt hnode)
  refine h.notice rfl (h.index.worsen hworse nofun) (fun _ => hworse.spoilt) ?_
  rintro _ ⟨⟩ n' hn
  exact hspoilt n' (h.node_eq hnode hn ▸ .refl _)

end

theorem finish_directories_fatal (b : Building) (directories : List (DirectoryToken × Bool)) :
    (directories.foldl Building.finish_directory b).fatal = b.fatal := by
  induction directories generalizing b with
  | nil => rfl
  | cons directory directories ih => exact ih _

theorem apply_batch_fatal (h : (b.apply_batch batch).fatal = none) :
    b.fatal = none := by
  rw [Building.apply_batch] at h
  split at h
  · exact h
  · exact absurd h (fail_fatal _ _)

/-- What was fatal stays so. -/
theorem handle_fatal
    (h : (b.handle event progress_error).fatal = none) : b.fatal = none := by
  cases event with
  | Started root_name identity link_count =>
    rw [Building.handle] at h
    split at h
    · exact absurd h (fail_fatal _ _)
    · exact h
  | Entries batch =>
    have hreport := apply_batch_fatal h
    cases progress_error with
    | none => exact hreport
    | some error => exact absurd hreport (fail_fatal _ _)
  | DirectoryFinished directory complete => exact h
  | DirectoriesFinished directories =>
    rw [Building.handle, finish_directories_fatal] at h
    exact h
  | DirectoryExcluded directory reason =>
    rw [Building.handle] at h
    split at h <;> exact h
  | DirectoryFailed directory message =>
    rw [Building.handle] at h
    split at h
    · exact h
    · exact absurd h (fail_fatal _ _)
  | Failed message => exact absurd h (fail_fatal _ _)
  | Cancelled => exact absurd h (fail_fatal _ _)
  | Finished => exact h

/-- **An event that is not fatal** is followed. -/
theorem Follows.handle (h : b.Follows items) {event : ScanEvent}
    (hfatal : (b.handle event progress_error).fatal = none)
    (hitems : Announced (items ++ event.items)) :
    (b.handle event progress_error).Follows (items ++ event.items) := by
  cases event with
  | Started root_name identity link_count =>
    rw [Building.handle] at hfatal ⊢
    split at hfatal
    · exact absurd hfatal (fail_fatal _ _)
    · rename_i hsame
      rw [if_neg hsame, ScanEvent.items, append_nil]
      exact h
  | Entries batch =>
    rw [Building.handle] at hfatal ⊢
    cases progress_error with
    | some error =>
      have hfatal := apply_batch_fatal hfatal
      exact absurd hfatal (fail_fatal _ _)
    | none =>
      rw [report, Building.apply_batch] at hfatal ⊢
      cases hok : TokenTree.apply_batch batch b.index with
      | ok result x =>
        simp only
        exact h.apply_batch hok hitems
      | error message x =>
        simp only [hok] at hfatal
        exact absurd hfatal (fail_fatal _ _)
  | DirectoryFinished directory complete =>
    exact h.finish_directory (directory, complete) hitems
  | DirectoriesFinished directories => exact h.finish_directories hitems
  | DirectoryExcluded directory reason =>
    obtain ⟨n, hnode⟩ := h.exists_node (hitems.known (mem_singleton_self directory))
    exact h.exclude hnode
  | DirectoryFailed directory message =>
    obtain ⟨n, hnode⟩ := h.exists_node (hitems.known (mem_singleton_self directory))
    rw [Building.handle]
    simp only [hnode]
    exact h.mark hnode
  | Failed message => cases hfatal
  | Cancelled => cases hfatal
  | Finished =>
    rw [ScanEvent.items, append_nil]
    exact h

end Building

theorem receive_event (h : event ≠ .Finished) (progress_error : Option String)
    (received : List Received) (b : Building) :
    receive (.event event progress_error :: received) b =
        receive received (b.handle event progress_error) ∧
      itemsOf (.event event progress_error :: received) = event.items ++ itemsOf received := by
  cases event <;> first | exact ⟨rfl, rfl⟩ | exact absurd rfl h

/-- **What is received without a fatal event** is followed. -/
theorem receive_follows
    (h : b.fatal = none → b.Follows items) (hreceive : receive received b = some b')
    (hfatal : b'.fatal = none) (hitems : Announced (items ++ itemsOf received)) :
    b'.Follows (items ++ itemsOf received) := by
  induction received generalizing b items with
  | nil => cases hreceive
  | cons first received ih =>
    cases first with
    | event event progress_error =>
      by_cases hend : event = .Finished
      · subst hend
        cases hreceive
        rw [itemsOf, append_nil]
        exact h hfatal
      · obtain ⟨hnext, hsplit⟩ := receive_event hend progress_error received b
        rw [hnext] at hreceive
        rw [hsplit, ← append_assoc] at hitems ⊢
        refine ih (fun hfatal => ?_) hreceive hitems
        exact (h (Building.handle_fatal hfatal)).handle hfatal hitems.of_append
    | Timeout => exact ih h hreceive hitems
    | Disconnected =>
      cases hreceive
      exact absurd hfatal nofun

end Ish.Index
