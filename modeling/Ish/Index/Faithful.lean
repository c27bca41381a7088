import Ish.Index.Receiving
import Ish.Index.Targets
import Ish.Scan.Protocol

/-!
# The index is faithful

For what a scan may send, an index that is built has a node for each entry it
received, and a directory in it is complete only if everything in it is known. A
plan then names all that the directories it removes hold.
-/

namespace Ish.Index

open Ish.Lib.Forest List Option

/-- An entry of a directory. -/
structure Listed where
  name : List UInt8
  entry_type : EntryType
  identity : FileIdentity
  deriving DecidableEq

/-- What a scan may send of directories that hold what `listing` says. Tokens are
introduced before they are used, and once. Each directory is finished once, behind
its entries and the directories below it. A directory that is sent as complete has
a token, and one that is finished as complete had all its entries sent. -/
structure MaySend (listing : DirectoryToken → List Listed) (items : List Item) : Prop where
  announced : Announced items
  finished : ∀ token ∈ tokens (entriesOf items), ∃ complete, .finish token complete ∈ items
  behind : ∀ before token complete after, items = before ++ .finish token complete :: after →
    (∀ again, .finish token again ∉ before ++ after) ∧
    (∀ e, .entry e ∈ after → e.2.parent ≠ token) ∧
    ∀ child, Scan.Under (items.map Item.forget) child token →
      ∃ flag, .finish child flag ∈ before
  states : ∀ e ∈ entriesOf items, e.2.state = .Complete ∨ e.2.state = .Incomplete ∨
    ∃ reason, e.2.state = .Excluded reason
  opened : ∀ e ∈ entriesOf items, e.2.entry_type = .Directory → e.2.state = .Complete →
    e.2.directory_token ≠ none
  listed : ∀ token, .finish token true ∈ items → ∀ f ∈ listing token,
    ∃ e ∈ entriesOf items, e.2.parent = token ∧ f = ⟨e.1, e.2.entry_type, e.2.identity⟩

/-! ## From the start to the end -/

/-- **The empty index** is followed. -/
theorem follows_new (h : Tree.new name identity link_count = some t) :
    (⟨⟨t, [some t.root]⟩, none⟩ : Building).Follows [] := by
  obtain ⟨hroot, r, hnodes, hparent, -, -, -, -, hstate, happarent, hallocated⟩ :=
    Tree.new_record h
  obtain ⟨hlinked, hrecord⟩ := Tree.new_linked h
  have hrecord : ∀ n r', t.record n = some r' → n = 0 ∧ r' = r := by
    intro n r' hr'
    obtain ⟨rfl, hnodes'⟩ := hrecord n r' hr'
    exact ⟨rfl, singleton_injective (hnodes'.symm.trans hnodes)⟩
  refine ⟨⟨⟨hlinked, congrArg List.length hnodes, fun i e => nofun, fun token n => ?_⟩,
    ⟨fun i e => nofun, ?_, ?_⟩, nofun⟩, fun item => nofun⟩
  · rw [TokenTree.node]
    dsimp only
    rw [getElem?_singleton, hroot]
    constructor
    · intro hnode
      split at hnode
      · rename_i htoken
        exact .inl ⟨htoken, (some.inj hnode).symm⟩
      · cases hnode
    · rintro (⟨rfl, rfl⟩ | ⟨i, e, he, -⟩)
      · rfl
      · cases he
  · intro n r' p hr' _ hp
    obtain ⟨-, rfl⟩ := hrecord n r' hr'
    rw [hparent] at hp
    cases hp
  · intro m d r' hr'
    obtain ⟨rfl, rfl⟩ := hrecord d r' hr'
    refine .inr ?_
    cases m with
    | apparent => simp [Measure.ofRecord, Measure.waiting, Measure.own, Measure.below, happarent, entriesOf]
    | allocated => simp [Measure.ofRecord, Measure.waiting, Measure.own, Measure.below, hallocated, entriesOf]

/-- **An index that is built** is followed to its end, where the root is no longer scanned. -/
theorem build_index_follows (hitems : Announced (itemsOf received))
    (h : build_index root received joined = some (.ok t)) :
    ∃ x : TokenTree, x.tree = t ∧ (⟨x, none⟩ : Building).Follows (itemsOf received) := by
  rw [build_index] at h
  cases hnew : Tree.new root.name root.identity root.link_count with
  | none =>
    simp only [hnew] at h
    cases h
  | some start =>
    simp only [hnew, bind_eq_bind, bind_eq_some_iff] at h
    obtain ⟨b, hreceive, h⟩ := h
    split at h
    · cases h
    · split at h
      · cases h
      · rename_i hfatal
        have hnone := eq_none_iff_forall_ne_some.mpr hfatal
        have hb : b.Follows ([] ++ itemsOf received) :=
          receive_follows (fun _ => follows_new hnew) hreceive hnone hitems
        rw [nil_append] at hb
        obtain ⟨x, fatal⟩ := b
        obtain rfl : fatal = none := hnone
        split at h
        · rename_i hscanning
          cases h
          obtain ⟨r, hr, hstate⟩ := (Option.any_eq_true ..).mp hscanning
          have hstate := of_decide_eq_true hstate
          refine ⟨{ x with tree := _ }, rfl, hb.index.complete hr hstate, ?_⟩
          intro item hitem token htoken n hn
          exact Tree.keeps_complete hr hstate n (hb.blamed item hitem token htoken n hn)
        · cases h
          exact ⟨x, rfl, hb⟩

/-! ## The index -/

/-- What is said of the index `t` that is built from `items`. -/
structure FaithfulTo (listing : DirectoryToken → List Listed) (items : List Item) (t : Tree) :
    Prop where
  /-- There is one node for the root, and one for each entry. -/
  length : t.nodes.length = (entriesOf items).length + 1
  /-- The node of an entry is below that of its parent. -/
  node : ∀ i e, (entriesOf items)[i]? = some e → ∃ r, t.record (i + 1) = some r ∧
    t.name (i + 1) = some e.1 ∧ r.entry_type = e.2.entry_type ∧ r.identity = e.2.identity ∧
    ∃ p, r.parent = some p ∧ Introduces (entriesOf items) e.2.parent p
  /-- Of a complete directory, all entries were received. -/
  received : ∀ token d, Introduces (entriesOf items) token d → t.Completed d →
    ∀ f ∈ listing token, ∃ e ∈ entriesOf items, e.2.parent = token ∧
      f = ⟨e.1, e.2.entry_type, e.2.identity⟩
  /-- Nothing in a complete directory is spoilt, or was sent so. -/
  clean : ∀ d, t.Completed d → ∀ n, n < t.nodes.length → t.Above d n → t.Completed n ∧
    (∀ i e, n = i + 1 → (entriesOf items)[i]? = some e → e.2.state = .Complete) ∧
    ∀ item ∈ items, ∀ token, item.blames = some token → ¬ Introduces (entriesOf items) token n
  /-- The totals of a complete node are the sums of what is below it. -/
  totals : ∀ m : Measure, ∀ d r, t.record d = some r → r.state = .Complete →
    m.ofRecord r = m.own (entriesOf items) d + m.below t (entriesOf items) d
  /-- What is above a node that is not complete is not complete. -/
  above : ∀ n, n < t.nodes.length → ¬ t.Completed n → ∀ a, t.Above a n → ¬ t.Completed a
  /-- A plan names all that the directories it removes hold. -/
  planned : ∀ selected plan, create_plan t selected = some (.ok plan) →
    ∀ d ∈ plan.targets, t.IsDirectory d → ∃ token, Introduces (entriesOf items) token d ∧
      ∀ f ∈ listing token, ∃ n ∈ plan.targets, t.parentOf n = some d ∧ t.name n = some f.name ∧
        ∃ r, t.record n = some r ∧ r.entry_type = f.entry_type ∧ r.identity = f.identity

theorem Tree.completed_not_spoilt {t : Tree} (h : t.Completed n) : ¬ t.Spoilt n := by
  obtain ⟨r, hr, hstate⟩ := h
  rintro ⟨r', hr', hspoilt⟩
  rw [hr, some.injEq] at hr'
  exact hspoilt.2 (hr' ▸ hstate)

variable {items : List Item}

theorem Building.Follows.above {b : Building} (h : b.Follows items)
    {n a : NodeId} (hn : n < b.index.tree.nodes.length) (hnot : ¬ b.index.tree.Completed n)
    (ha : b.index.tree.Above a n) : ¬ b.index.tree.Completed a := by
  obtain ⟨r, hr⟩ := b.index.tree.exists_record hn
  rcases above_iff.mp ha with rfl | ⟨p, hp, hup⟩
  · exact hnot
  · rw [Tree.parentOf_eq hr] at hp
    have hstate : r.state ≠ .Complete := fun hcomplete => hnot ⟨r, hr, hcomplete⟩
    have hdoubt := h.index.judged.marked n r p hr hstate hp a hup
    exact fun hcomplete => Tree.completed_not_spoilt hcomplete (Tree.doubtful_none.mp hdoubt)

variable {listing : DirectoryToken → List Listed}

theorem Building.Follows.finished {b : Building} (h : b.Follows items)
    (hsend : MaySend listing items) (hd : Introduces (entriesOf items) token d)
    (hcomplete : b.index.tree.Completed d) : .finish token true ∈ items := by
  obtain ⟨complete, hfinish⟩ := hsend.finished token hd.mem_tokens
  cases complete with
  | true => exact hfinish
  | false =>
    exact absurd (h.blamed _ hfinish token rfl d hd) (Tree.completed_not_spoilt hcomplete)

theorem Building.Follows.sent_complete {b : Building} (h : b.Follows items)
    (hsend : MaySend listing items) {i : Nat} {e : Entry}
    (he : (entriesOf items)[i]? = some e) (hcomplete : b.index.tree.Completed (i + 1)) :
    e.2.state = .Complete := by
  have hnot := mt (h.index.judged.sent i e he) (Tree.completed_not_spoilt hcomplete)
  rcases hsend.states e (mem_of_getElem? he) with hstate | hstate | ⟨reason, hstate⟩
  · exact hstate
  · rw [hstate] at hnot
    exact absurd ⟨nofun, nofun⟩ hnot
  · rw [hstate] at hnot
    exact absurd ⟨nofun, nofun⟩ hnot

theorem Building.Follows.exists_token {b : Building} (h : b.Follows items)
    (hsend : MaySend listing items) {d : NodeId}
    (hdirectory : b.index.tree.IsDirectory d) (hcomplete : b.index.tree.Completed d) :
    ∃ token, Introduces (entriesOf items) token d := by
  obtain ⟨r, hr, htype⟩ := hdirectory
  cases d with
  | zero => exact ⟨0, .inl ⟨rfl, rfl⟩⟩
  | succ i =>
    have hlt := Tree.record_lt hr
    rw [h.index.holds.length] at hlt
    have he := getElem?_eq_getElem (Nat.lt_of_succ_lt_succ hlt)
    obtain ⟨r', hr', -, htype', -⟩ := h.index.holds.entry i _ he
    rw [hr, some.injEq] at hr'
    subst hr'
    have htoken := hsend.opened _ (mem_of_getElem? he) (htype'.symm.trans htype)
      (h.sent_complete hsend he hcomplete)
    obtain ⟨token, htoken⟩ := ne_none_iff_exists'.mp htoken
    exact ⟨token, .inr ⟨i, _, he, htoken, rfl⟩⟩

theorem Building.Follows.exists_child {b : Building} (h : b.Follows items)
    {token : DirectoryToken} (he : e ∈ entriesOf items) (hparent : e.2.parent = token)
    (hd : Introduces (entriesOf items) token d) :
    ∃ n r, b.index.tree.record n = some r ∧ b.index.tree.parentOf n = some d ∧
      b.index.tree.name n = some e.1 ∧ r.entry_type = e.2.entry_type ∧
      r.identity = e.2.identity := by
  obtain ⟨i, hi⟩ := mem_iff_getElem?.mp he
  obtain ⟨r, hr, hname, htype, hidentity, p, hp, hintroduces⟩ := h.index.holds.entry i e hi
  have hnode := (h.index.holds.node token d).mpr hd
  rw [hparent] at hintroduces
  obtain rfl := h.node_eq hnode hintroduces
  exact ⟨i + 1, r, hr, (Tree.parentOf_eq hr).trans hp, hname, htype, hidentity⟩

/-- **The index is faithful.** For whatever a scan may send, an index that is built
has one node for each entry, under the right parent. A directory that ends complete
had all its entries received, nothing in it is spoilt or was reported so, and its
totals are exact; nothing above a node that is not complete is complete. A plan that
is accepted names all that the directories it removes hold. -/
theorem index_faithful {root : RootAnchor} {received : List Received} {joined : Bool} {t : Tree}
    {listing : DirectoryToken → List Listed} (hsend : MaySend listing (itemsOf received))
    (hbuild : build_index root received joined = some (.ok t)) :
    FaithfulTo listing (itemsOf received) t := by
  obtain ⟨x, rfl, h⟩ := build_index_follows hsend.announced hbuild
  have hreceived : ∀ token d, Introduces (entriesOf (itemsOf received)) token d →
      x.tree.Completed d → ∀ f ∈ listing token, ∃ e ∈ entriesOf (itemsOf received),
        e.2.parent = token ∧ f = ⟨e.1, e.2.entry_type, e.2.identity⟩ :=
    fun token d hd hcomplete => hsend.listed token (h.finished hsend hd hcomplete)
  refine ⟨h.index.holds.length, h.index.holds.entry, hreceived, ?_, ?_, ?_, ?_⟩
  · intro d hcomplete n hn habove
    have hcompleted : x.tree.Completed n :=
      by_contra fun hnot => h.above hn hnot habove hcomplete
    refine ⟨hcompleted, ?_, fun item hitem token htoken hintroduces => ?_⟩
    · rintro i e rfl he
      exact h.sent_complete hsend he hcompleted
    · exact Tree.completed_not_spoilt hcompleted (h.blamed item hitem token htoken n hintroduces)
  · intro m d r hr hstate
    have htotal := h.index.judged.totals m d r hr
    rw [Tree.doubtful_none] at htotal
    exact htotal.resolve_left (Tree.completed_not_spoilt ⟨r, hr, hstate⟩)
  · exact fun n hn hnot a ha => h.above hn hnot ha
  · intro selected plan hplan d hd hdirectory
    obtain ⟨result, hresult, hspec⟩ := create_plan_spec h.index.holds.linked selected
    obtain rfl : result = .ok plan := some.inj (hresult.symm.trans hplan)
    obtain ⟨htargets, -, hcompleted⟩ := hspec plan rfl
    obtain ⟨token, htoken⟩ := h.exists_token hsend hdirectory (hcompleted d hd)
    refine ⟨token, htoken, fun f hf => ?_⟩
    obtain ⟨e, he, hparent, rfl⟩ := hreceived token d htoken (hcompleted d hd) f hf
    obtain ⟨n, r, hr, hup, hname, htype, hidentity⟩ :=
      h.exists_child he hparent htoken
    refine ⟨n, (htargets n).mpr ?_, hup, hname, r, hr, htype, hidentity⟩
    obtain ⟨selectedNode, hselected, hreach⟩ := (htargets d).mp hd
    exact ⟨selectedNode, hselected, .tail hreach ⟨hup, hdirectory⟩⟩

/-! ## What the scan sends -/

/-! ## A scan of one file -/

/-- What is received of a root that holds the file `f`. -/
def oneFile : List Received :=
  [.event (.Started [] ⟨1, 2⟩ 2) none,
   .event (.Entries ⟨[⟨0, ⟨0, 1⟩, none, .RegularFile, ⟨1, 3⟩, 1, 5, 8, .Complete⟩], [102]⟩) none,
   .event (.DirectoriesFinished [(0, true)]) none, .event .Finished none]

def oneFileListing (token : DirectoryToken) : List Listed :=
  if token = 0 then [⟨[102], .RegularFile, ⟨1, 3⟩⟩] else []

theorem maySend_oneFile : MaySend oneFileListing (itemsOf oneFile) := by
  have hitems : itemsOf oneFile =
      [.entry ([102], ⟨0, ⟨0, 1⟩, none, .RegularFile, ⟨1, 3⟩, 1, 5, 8, .Complete⟩),
        .finish 0 true] := rfl
  rw [hitems]
  refine ⟨⟨⟨?_, ?_, trivial⟩, by decide⟩, ?_, ?_, ?_, ?_, ?_⟩
  · exact fun token htoken => htoken
  · exact fun token htoken => htoken
  · intro token htoken
    obtain rfl : token = 0 := by simpa [tokens, entriesOf, Item.asEntry] using htoken
    exact ⟨true, by simp⟩
  · intro before token complete after heq
    have hsplit : before = [.entry ([102], ⟨0, ⟨0, 1⟩, none, .RegularFile, ⟨1, 3⟩, 1, 5, 8,
        .Complete⟩)] ∧ (token = 0 ∧ complete = true) ∧ after = [] := by
      rcases before with _ | ⟨first, _ | ⟨second, before⟩⟩
      · simp at heq
      · simpa [eq_comm] using heq
      · simp at heq
    obtain ⟨rfl, ⟨rfl, -⟩, rfl⟩ := hsplit
    refine ⟨by simp, by simp, fun child hunder => ?_⟩
    obtain ⟨parent, ⟨entry, hentry, hchild, -⟩, -⟩ := Relation.TransGen.head'_iff.mp hunder
    have hnone : entry.directory_token = none := by
      simp only [map_cons, map_nil, Item.forget, mem_cons, Scan.Item.entry.injEq,
        reduceCtorEq, not_mem_nil, or_false] at hentry
      rw [hentry]
    rw [hnone] at hchild
    cases hchild
  · intro e he
    obtain rfl := mem_singleton.mp he
    exact .inl rfl
  · intro e he
    obtain rfl := mem_singleton.mp he
    rintro ⟨⟩
  · intro token hfinish f hf
    obtain rfl : token = 0 := by simpa using hfinish
    obtain rfl := mem_singleton.mp hf
    exact ⟨_, mem_singleton_self _, rfl, rfl⟩

def oneFileTree : Tree :=
  { nodes := [⟨none, some 1, some 1, none, ⟨0, 0⟩, .Root, ⟨1, 2⟩, 2, 5, 8, .Complete⟩,
      ⟨some 0, none, none, none, ⟨0, 1⟩, .RegularFile, ⟨1, 3⟩, 1, 5, 8, .Complete⟩]
    names := [102]
    root := 0 }

/-- The index of a root that holds one file. -/
theorem index_faithful_oneFile : FaithfulTo oneFileListing (itemsOf oneFile) oneFileTree :=
  by
  have hbuild : build_index ⟨[], ⟨1, 2⟩, 2⟩ oneFile true = some (.ok oneFileTree) := by
    decide
  exact index_faithful maySend_oneFile hbuild

end Ish.Index
