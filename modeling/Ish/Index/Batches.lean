import Ish.Index.States

/-!
# Batches

Each entry of a batch becomes a node below that of its parent's token, and the
invariant follows it. A batch that ends in an error is not followed further.
-/

namespace Ish.Index

open Ish.Lib.Forest Ish.Lib.EState List Option

/-! ## Tokens -/

section Tokens

variable {es : List Entry} {e : Entry} {token : DirectoryToken} {n : NodeId}

theorem introduces_append : Introduces (es ++ [e]) token n ↔
    Introduces es token n ∨ e.2.directory_token = some token ∧ n = es.length + 1 := by
  constructor
  · rintro (hroot | ⟨i, other, hother, htoken, rfl⟩)
    · exact .inl (.inl hroot)
    · rcases Nat.lt_or_ge i es.length with hlt | hge
      · rw [getElem?_append_left hlt] at hother
        exact .inl (.inr ⟨i, other, hother, htoken, rfl⟩)
      · rw [getElem?_append_right hge, getElem?_singleton] at hother
        split at hother
        · rename_i hzero
          cases hother
          have hi : i = es.length := Nat.le_antisymm (Nat.sub_eq_zero_iff_le.mp hzero) hge
          exact .inr ⟨htoken, by rw [hi]⟩
        · cases hother
  · rintro ((hroot | ⟨i, other, hother, htoken, rfl⟩) | ⟨htoken, rfl⟩)
    · exact .inl hroot
    · have hlt := (List.getElem?_eq_some_iff.mp hother).1
      exact .inr ⟨i, other, by rw [getElem?_append_left hlt, hother], htoken, rfl⟩
    · exact .inr ⟨es.length, e, getElem?_concat_length, htoken, rfl⟩

theorem Introduces.mem_tokens (h : Introduces es token n) : token ∈ tokens es := by
  rcases h with ⟨rfl, -⟩ | ⟨i, other, hother, htoken, -⟩
  · exact mem_cons_self
  · exact mem_cons_of_mem _ (mem_filterMap.mpr ⟨other, mem_of_getElem? hother, htoken⟩)

theorem tokens_append : tokens (es ++ [e]) = tokens es ++ e.2.directory_token.toList := by
  rw [tokens, filterMap_append, tokens, cons_append]
  cases h : e.2.directory_token <;> simp [h]

theorem not_introduces (hnodup : (tokens (es ++ [e])).Nodup)
    (htoken : e.2.directory_token = some token) : ¬ Introduces es token n := by
  intro h
  rw [tokens_append, htoken, toList_some, nodup_append] at hnodup
  exact hnodup.2.2 token h.mem_tokens token (mem_singleton_self token) rfl

end Tokens

namespace TokenTree

variable {x x' : TokenTree} {es : List Entry}

theorem node_set_token (x : TokenTree) (token other : DirectoryToken) (id : NodeId) :
    (x.set_token token id).node other = if token = other then some id else x.node other := by
  rw [node, set_token]
  dsimp only
  rw [getElem?_set]
  split
  · rw [if_pos]
    · rfl
    · rw [length_append, length_replicate]
      have hlt : ∀ a b : Nat, b < a + (b + 1 - a) := by
        intro a b
        omega
      exact hlt _ _
  · rw [node]
    rcases Nat.lt_or_ge other x.token_nodes.length with hlt | hge
    · rw [getElem?_append_left hlt]
    · rw [getElem?_append_right hge, getElem?_eq_none hge, getElem?_replicate]
      split <;> rfl

/-! ## Runs -/

/-- What is known between two entries. -/
structure Follows (es : List Entry) (x : TokenTree) (run : Option Run) : Prop where
  holds : x.Holds es
  judged : x.tree.Judged es run
  parent_lt : ∀ current, run = some current → current.parent < x.tree.nodes.length

/-- A change of states and totals. -/
theorem Holds.of_shape (h : x.Holds es) (hshape : Tree.SameShape x.tree t') :
    ({ x with tree := t' } : TokenTree).Holds es := by
  refine ⟨hshape.linked h.linked, hshape.length.trans h.length, fun i e he => ?_, h.node⟩
  obtain ⟨r, hr, hname, htype, hidentity, p, hp, hparent⟩ := h.entry i e he
  obtain ⟨r', hr', hsame⟩ := hshape.exists_record hr
  have htype' : r'.entry_type = r.entry_type := congrArg (·.entry_type) hsame
  have hidentity' : r'.identity = r.identity := congrArg (·.identity) hsame
  exact ⟨r', hr', (hshape.name _).trans hname, htype'.trans htype, hidentity'.trans hidentity, p,
    (hshape.parent hr hr').trans hp, hparent⟩

theorem Follows.worsen (h : x.Follows es run)
    (hworse : Tree.Worsens x.tree t')
    (hspoilt : ∀ current, run = some current → ∀ a, x.tree.Above a current.parent → t'.Spoilt a) :
    ({ x with tree := t' } : TokenTree).Follows es none :=
  ⟨h.holds.of_shape hworse.shape, h.judged.worsen hworse hspoilt, nofun⟩

/-- The second half of `finish`, of a run whose problem is marked. -/
theorem Follows.finish_marked (h : x.Follows es (some current))
    (hclean : current.fits = true → ∀ n, x.tree.Doubtful (some current) n → x.tree.Spoilt n) :
    ({ x with tree :=
      match current.fits,
        x.tree.add_to_ancestors current.parent current.apparent current.allocated with
      | true, (true, t) => t
      | true, (false, t) => t.mark_incomplete_to_root current.parent
      | false, _ => x.tree.mark_incomplete_to_root current.parent } : TokenTree).Follows es none := by
  have hparent := h.parent_lt current rfl
  cases hfits : current.fits with
  | false =>
    obtain ⟨hworse, hspoilt⟩ := Tree.mark_worsens h.holds.linked hparent
    refine h.worsen hworse ?_
    rintro _ ⟨⟩
    exact hspoilt
  | true =>
    have hadd := h.judged.add_to_ancestors h.holds.linked hparent (hclean hfits)
    generalize x.tree.add_to_ancestors _ _ _ = added at hadd ⊢
    obtain ⟨fits, t'⟩ := added
    obtain ⟨hshape, hjudged, hspoilt⟩ := hadd
    have hfollows : ({ x with tree := t' } : TokenTree).Follows es none :=
      ⟨h.holds.of_shape hshape, hjudged, nofun⟩
    cases fits with
    | true => exact hfollows
    | false =>
      obtain ⟨hworse, -⟩ := Tree.mark_worsens (hshape.linked h.holds.linked)
        (hshape.length ▸ hparent)
      exact hfollows.worsen hworse nofun

/-- **A run that is finished** leaves nothing in doubt. -/
theorem Follows.finish (h : x.Follows es (some current)) :
    (x.finish current).Follows es none := by
  have hparent := h.parent_lt current rfl
  cases hproblem : current.problem with
  | false =>
    rw [TokenTree.finish, hproblem]
    refine h.finish_marked fun hfits n hn => ?_
    exact (Tree.doubtful_clean hproblem hfits).mp hn
  | true =>
    rw [TokenTree.finish, hproblem]
    obtain ⟨hworse, hspoilt⟩ := Tree.mark_worsens h.holds.linked hparent
    have hspoilt' : ∀ a, (x.tree.mark_incomplete_to_root current.parent).Above a current.parent →
        (x.tree.mark_incomplete_to_root current.parent).Spoilt a := fun a ha =>
      hspoilt a (hworse.shape.above.mp ha)
    have hmarked := h.worsen hworse (by rintro _ ⟨⟩; exact hspoilt)
    have hdeferred : ({ x with tree := x.tree.mark_incomplete_to_root current.parent } :
        TokenTree).Follows es (some current) :=
      ⟨hmarked.holds, hmarked.judged.defer hspoilt', by
        rintro _ ⟨⟩
        exact hworse.shape.length ▸ hparent⟩
    refine hdeferred.finish_marked fun _ n hn => ?_
    rcases hn with hn | ⟨_, ⟨⟩, -, habove⟩
    · exact hn
    · exact hspoilt' n habove

/-! ## Entries -/

/-- The token table behind an entry. -/
def link (x : TokenTree) (entry : ScanEntry) (id : NodeId) : TokenTree :=
  match entry.directory_token with
  | some token => x.set_token token id
  | none => x

theorem insert_eq_ok
    (h : insert names entry parent x = .ok () x') :
    ∃ name id tree, entry.name.get names = some name ∧
      x.tree.append parent name entry.entry_type entry.identity entry.link_count
        entry.apparent_bytes entry.allocated_bytes entry.state = some (id, tree) ∧
      x' = ({ x with tree } : TokenTree).link entry id := by
  rw [insert] at h
  cases hname : entry.name.get names with
  | none => simp only [hname] at h; cases h
  | some name =>
    simp only [hname] at h
    rw [bind_ok (get_run)] at h
    cases hnode : x.tree.append parent name entry.entry_type entry.identity entry.link_count
      entry.apparent_bytes entry.allocated_bytes entry.state with
    | none => simp only [hnode] at h; cases h
    | some appended =>
      obtain ⟨id, tree⟩ := appended
      refine ⟨name, id, tree, rfl, hnode, ?_⟩
      simp only [hnode] at h
      rw [link]
      cases htoken : entry.directory_token <;> simp only [htoken] at h <;> cases h <;> rfl

@[simp] theorem link_tree (x : TokenTree) (entry : ScanEntry) (id : NodeId) :
    (x.link entry id).tree = x.tree := by
  rw [link]
  split <;> rfl

theorem node_link (x : TokenTree) (entry : ScanEntry) (id : NodeId) (token : DirectoryToken) :
    (x.link entry id).node token =
      if entry.directory_token = some token then some id else x.node token := by
  rw [link]
  split
  · rename_i own htoken
    simp only [node_set_token, htoken, some.injEq]
  · rename_i hnone
    rw [hnone, if_neg nofun]

theorem Holds.insert (h : x.Holds es) {name e parent id}
    {tree} (happend : x.tree.append parent name e.entry_type e.identity e.link_count
      e.apparent_bytes e.allocated_bytes e.state = some (id, tree))
    (hparent : x.node e.parent = some parent) (hnodup : (tokens (es ++ [(name, e)])).Nodup) :
    (({ x with tree } : TokenTree).link e id).Holds (es ++ [(name, e)]) := by
  obtain ⟨rfl, pr, happ⟩ := Tree.append_eq_some h.linked happend
  refine ⟨?_, ?_, ?_, ?_⟩
  · rw [link_tree]
    exact happ.linked h.linked
  · rw [link_tree, length_append]
    exact happ.length.trans (congrArg (· + 1) h.length)
  · intro i entry hentry
    rw [link_tree]
    rcases Nat.lt_or_ge i es.length with hlt | hge
    · rw [getElem?_append_left hlt] at hentry
      obtain ⟨r, hr, hname, htype, hidentity, p, hp, hintroduces⟩ := h.entry i entry hentry
      exact ⟨_, happ.old_record hr, (happ.name_of_lt h.linked (Tree.record_lt hr)).trans hname,
        htype, hidentity, p, hp, introduces_append.mpr (.inl hintroduces)⟩
    · have hi := (List.getElem?_eq_some_iff.mp hentry).1
      rw [length_append, length_singleton] at hi
      obtain rfl : i = es.length := Nat.le_antisymm (Nat.le_of_lt_succ hi) hge
      rw [getElem?_concat_length, some.injEq] at hentry
      subst hentry
      rw [← h.length]
      exact ⟨_, happ.appended, happ.name_new, rfl, rfl, parent, rfl,
        introduces_append.mpr (.inl ((h.node e.parent parent).mp hparent))⟩
  · intro token n
    have hnode : ({ x with tree } : TokenTree).node token = x.node token := rfl
    rw [node_link, introduces_append, ← h.node, hnode, h.length]
    dsimp only
    split
    · rename_i htoken
      have hnot : x.node token ≠ some n := fun hn =>
        not_introduces hnodup htoken ((h.node token n).mp hn)
      rw [some.injEq, or_iff_right hnot]
      exact ⟨fun heq => ⟨htoken, heq.symm⟩, fun heq => heq.2.symm⟩
    · rename_i htoken
      rw [or_iff_left fun hn => htoken hn.1]

/-! ## Totals -/

theorem Run.add_parent (run : Run) (e : ScanEntry) : (run.add e).parent = run.parent := by
  rw [Run.add]
  repeat' split
  all_goals rfl

theorem Run.add_doubt {run : Run} (e : ScanEntry) (h : run.problem = true ∨ run.fits = false) :
    (run.add e).problem = true ∨ (run.add e).fits = false := by
  rw [Run.add]
  repeat' split
  all_goals simp_all

theorem Run.add_problem (run : Run) (h : e.state ≠ .Complete) :
    (run.add e).problem = true := by
  rw [Run.add]
  split
  · contradiction
  all_goals rfl

theorem toNat_checked_add (h : checked_add a b = some c) :
    c.toNat = a.toNat + b.toNat := by
  rw [checked_add, ite_none_right_eq_some, some.injEq] at h
  rw [← h.2, UInt64.toNat_add]
  exact Nat.mod_eq_of_lt h.1

/-- An entry is added, or something is wrong. -/
theorem Run.add_total (run : Run) (name : List UInt8) (e : ScanEntry) :
    ((run.add e).problem = true ∨ (run.add e).fits = false) ∨
      ∀ m : Measure, m.ofRun (run.add e) = m.ofRun run + m.size (name, e) := by
  by_cases hstate : e.state = .Complete
  · rw [Run.add, hstate]
    dsimp only
    by_cases htype : e.entry_type = .Directory
    · rw [if_neg (not_not.mpr htype)]
      refine .inr fun m => ?_
      rw [Measure.size, if_pos htype, Nat.add_zero]
    · rw [if_pos htype]
      split
      · rename_i apparent allocated happarent hallocated
        refine .inr fun m => ?_
        rw [Measure.size, if_neg htype]
        cases m with
        | apparent => exact toNat_checked_add happarent
        | allocated => exact toNat_checked_add hallocated
      · exact .inl (.inr rfl)
  · exact .inl (.inl (Run.add_problem run hstate))

end TokenTree

namespace Tree

variable {t t' : Tree} {es : List Entry} {parent : NodeId} {name : List UInt8}
  {parent_record new : NodeRecord}

theorem Appends.spoilt (h : Appends t t' parent name parent_record new)
    (hn : t.Spoilt n) : t'.Spoilt n := by
  obtain ⟨r, hr, hstate⟩ := hn
  exact ⟨_, h.old_record hr, hstate⟩

theorem Appends.below_of_lt (h : Appends t t' parent name parent_record new) (hl : t.Linked)
    (hlength : t.nodes.length = es.length + 1) (m : Measure) (e : Entry) {d : NodeId}
    (hd : d < t.nodes.length) [Decidable (t.Above d parent)] :
    m.below t' (es ++ [e]) d = m.below t es d + if t.Above d parent then m.size e else 0 := by
  rw [Measure.below, length_append, length_singleton, Finset.sum_range_succ]
  congr 1
  · refine Finset.sum_congr rfl fun i hi => ?_
    have hlt := Finset.mem_range.mp hi
    have habove : t'.Above d (i + 1) ↔ t.Above d (i + 1) :=
      h.above_of_lt hl (hlength ▸ Nat.succ_lt_succ hlt)
    rw [getElem?_append_left hlt]
    by_cases hbelow : d ≠ i + 1 ∧ t.Above d (i + 1)
    · rw [if_pos hbelow, if_pos ⟨hbelow.1, habove.mpr hbelow.2⟩]
    · rw [if_neg hbelow, if_neg fun hbelow' => hbelow ⟨hbelow'.1, habove.mp hbelow'.2⟩]
  · have hne : d ≠ t.nodes.length := Nat.ne_of_lt hd
    have habove := h.above_new hl (a := d)
    rw [hlength] at habove hne
    rw [getElem?_concat_length, elim_some]
    by_cases hbelow : t.Above d parent
    · rw [if_pos hbelow, if_pos ⟨hne, habove.mpr (.inr hbelow)⟩]
    · rw [if_neg hbelow, if_neg fun hbelow' => (habove.mp hbelow'.2).elim hne hbelow]

theorem Appends.below_new (h : Appends t t' parent name parent_record new) (hl : t.Linked)
    (hlength : t.nodes.length = es.length + 1) (m : Measure) (e : Entry) :
    m.below t' (es ++ [e]) t.nodes.length = 0 := by
  refine Finset.sum_eq_zero fun i hi => if_neg ?_
  rintro ⟨hne, habove⟩
  have hlt := Finset.mem_range.mp hi
  rw [length_append, length_singleton] at hlt
  have hle := habove.le (h.linked hl).rising
  rw [hlength] at hle hne
  exact hne (Nat.le_antisymm hle (Nat.succ_le_of_lt hlt))

theorem own_append_of_lt (m : Measure) (e : Entry) {d : NodeId} (hd : d < es.length + 1) :
    m.own (es ++ [e]) d = m.own es d := by
  rw [Measure.own, Measure.own]
  split
  · rfl
  · rename_i hne
    rw [getElem?_append_left]
    exact Nat.lt_of_lt_of_le (Nat.sub_lt (Nat.pos_of_ne_zero hne) Nat.one_pos)
      (Nat.le_of_lt_succ hd)

theorem own_append_new (m : Measure) (e : Entry) :
    m.own (es ++ [e]) (es.length + 1) = m.ofEntry e.2 := by
  rw [Measure.own, if_neg (Nat.succ_ne_zero _), Nat.add_sub_cancel, getElem?_concat_length,
    elim_some]

variable {run : TokenTree.Run} {e : ScanEntry}

theorem Doubtful.append (h : Appends t t' run.parent name parent_record new) (hl : t.Linked)
    {n : NodeId} (hn : t.Doubtful (some run) n) : t'.Doubtful (some (run.add e)) n := by
  rcases hn with hn | ⟨_, ⟨⟩, hdoubt, habove⟩
  · exact .inl (h.spoilt hn)
  · refine .inr ⟨_, rfl, TokenTree.Run.add_doubt e hdoubt, ?_⟩
    rw [TokenTree.Run.add_parent]
    exact (h.above_of_lt hl h.parent_lt).mpr habove

/-- **An entry is judged** by its state, and counted in its run. -/
theorem Judged.append (h : t.Judged es (some run)) (hl : t.Linked)
    (hlength : t.nodes.length = es.length + 1)
    (happ : Appends t t' run.parent name parent_record (t.fresh run.parent name e.entry_type
      e.identity e.link_count e.apparent_bytes e.allocated_bytes e.state)) :
    t'.Judged (es ++ [(name, e)]) (some (run.add e)) := by
  have hnew : ∀ a, t.Above a run.parent → t'.Above a (run.add e).parent := by
    intro a ha
    rw [TokenTree.Run.add_parent]
    exact (happ.above_of_lt hl happ.parent_lt).mpr ha
  refine ⟨?_, ?_, ?_⟩
  · intro i entry hentry hstate
    rcases Nat.lt_or_ge i es.length with hlt | hge
    · rw [getElem?_append_left hlt] at hentry
      exact happ.spoilt (h.sent i entry hentry hstate)
    · have hi := (List.getElem?_eq_some_iff.mp hentry).1
      rw [length_append, length_singleton] at hi
      obtain rfl : i = es.length := Nat.le_antisymm (Nat.le_of_lt_succ hi) hge
      rw [getElem?_concat_length, some.injEq] at hentry
      subst hentry
      rw [← hlength]
      exact ⟨_, happ.appended, hstate⟩
  · intro n r' p hr' hstate hp a ha
    rcases happ.record_cases hr' with ⟨rfl, rfl⟩ | ⟨r, hr, rfl⟩
    · obtain rfl : run.parent = p := some.inj hp
      have habove := (happ.above_of_lt hl happ.parent_lt).mp ha
      refine .inr ⟨_, rfl, .inl (TokenTree.Run.add_problem run fun hcomplete => ?_), hnew a habove⟩
      rw [fresh, hcomplete] at hstate
      exact hstate rfl
    · have hlt : p < t.nodes.length := hl.parent_lt ((parentOf_eq hr).trans hp)
      exact (h.marked n r p hr hstate hp a ((happ.above_of_lt hl hlt).mp ha)).append happ hl
  · intro m d r' hr'
    rcases happ.record_cases hr' with ⟨rfl, rfl⟩ | ⟨r, hr, rfl⟩
    · have hnot : ¬ t'.Above t.nodes.length (run.add e).parent := by
        rw [TokenTree.Run.add_parent]
        intro habove
        exact Nat.not_le.mpr happ.parent_lt (habove.le (happ.linked hl).rising)
      rw [Measure.waiting, if_neg hnot, happ.below_new hl hlength, hlength, own_append_new]
      exact .inr (by cases m <;> rfl)
    · have hlt := record_lt hr
      have hrecord : m.ofRecord (relink run.parent t.nodes.length parent_record.last_child d r) =
          m.ofRecord r := by
        cases m <;> rfl
      classical
      rw [hrecord, happ.below_of_lt hl hlength m (name, e) hlt, own_append_of_lt m _ (hlength ▸ hlt)]
      rcases h.totals m d r hr with hd | htotal
      · exact .inl (hd.append happ hl)
      · have habove : t'.Above d (run.add e).parent ↔ t.Above d run.parent := by
          rw [TokenTree.Run.add_parent]
          exact happ.above_of_lt hl happ.parent_lt
        rw [Measure.waiting] at htotal ⊢
        by_cases hd : t.Above d run.parent
        · rw [if_pos hd] at htotal
          rcases TokenTree.Run.add_total run name e with hdoubt | htotals
          · exact .inl (.inr ⟨_, rfl, hdoubt, habove.mpr hd⟩)
          · rw [if_pos hd, if_pos (habove.mpr hd), htotals]
            exact .inr (by omega)
        · rw [if_neg hd] at htotal
          rw [if_neg hd, if_neg fun hd' => hd (habove.mp hd')]
          exact .inr (by omega)

end Tree

/-! ## A batch -/

/-- The entries of a batch, with their names. -/
def named (names : List UInt8) (entries : List ScanEntry) : List Entry :=
  entries.map fun e => ((e.name.get names).getD [], e)

theorem tokens_sublist (es more : List Entry) : (tokens es).Sublist (tokens (es ++ more)) := by
  rw [tokens, tokens, filterMap_append]
  exact (sublist_append_left _ _).cons_cons 0

namespace TokenTree

variable {x x' : TokenTree} {es : List Entry} {run : Option Run}

theorem Holds.node_lt (h : x.Holds es)
    (hn : x.node token = some n) : n < x.tree.nodes.length := by
  rw [h.length]
  rcases (h.node token n).mp hn with ⟨-, rfl⟩ | ⟨i, e, he, -, rfl⟩
  · exact Nat.succ_pos _
  · exact Nat.succ_lt_succ (List.getElem?_eq_some_iff.mp he).1

theorem Follows.start (h : x.Follows es none) {parent : NodeId}
    (hparent : parent < x.tree.nodes.length) : x.Follows es (some (.new parent)) := by
  refine ⟨h.holds, ⟨h.judged.sent, ?_, ?_⟩, ?_⟩
  · intro n r p hr hstate hp a ha
    exact .inl (Tree.doubtful_none.mp (h.judged.marked n r p hr hstate hp a ha))
  · intro m d r hr
    refine (h.judged.totals m d r hr).imp (fun hd => .inl (Tree.doubtful_none.mp hd)) ?_
    intro htotal
    have hzero : m.waiting x.tree d (some (.new parent)) = 0 := by
      rw [Measure.waiting]
      split
      · cases m <;> rfl
      · rfl
    rw [hzero]
    exact htotal
  · rintro _ ⟨⟩
    exact hparent

/-- **The run of an entry** is that of its parent. -/
theorem Follows.enter (h : x.Follows es run) {parent : NodeId}
    (hparent : parent < x.tree.nodes.length)
    (henter : enter run parent x = .ok current x') :
    x'.Follows es (some current) ∧ current.parent = parent ∧ x'.token_nodes = x.token_nodes := by
  cases run with
  | none =>
    cases henter
    exact ⟨h.start hparent, rfl, rfl⟩
  | some before =>
    rw [TokenTree.enter] at henter
    split at henter
    · cases henter
      have hfinished := h.finish
      refine ⟨hfinished.start ?_, rfl, rfl⟩
      rw [hfinished.holds.length, ← h.holds.length]
      exact hparent
    · rename_i hsame
      cases henter
      exact ⟨h, not_not.mp hsame, rfl⟩

/-- **A round of `apply_batch`** appends its entry. -/
theorem Follows.applyEntry (h : x.Follows es run)
    {current} (hround : applyEntry names run e x = .ok current x') :
    ∃ name, e.name.get names = some name ∧
      ((tokens (es ++ [(name, e)])).Nodup → x'.Follows (es ++ [(name, e)]) (some current)) := by
  rw [TokenTree.applyEntry, bind_ok get_run] at hround
  cases hparent : x.node e.parent with
  | none => simp only [hparent] at hround; cases hround
  | some parent =>
    simp only [hparent] at hround
    obtain ⟨entered, y, henter, hround⟩ := bind_eq_ok.mp hround
    obtain ⟨_, z, hinsert, hdone⟩ := bind_eq_ok.mp hround
    cases hdone
    obtain ⟨hy, rfl, htokens⟩ := h.enter (h.holds.node_lt hparent) henter
    obtain ⟨name, id, tree, hname, happend, rfl⟩ := insert_eq_ok hinsert
    refine ⟨name, hname, fun hnodup => ?_⟩
    have hnode : y.node e.parent = some entered.parent := by
      rw [node, htokens]
      exact hparent
    have hholds := hy.holds.insert happend hnode hnodup
    obtain ⟨-, pr, happ⟩ := Tree.append_eq_some hy.holds.linked happend
    refine ⟨hholds, ?_, ?_⟩
    · rw [link_tree]
      exact hy.judged.append hy.holds.linked hy.holds.length happ
    · rintro _ ⟨⟩
      rw [link_tree, Run.add_parent, happ.length]
      exact Nat.lt_succ_of_lt happ.parent_lt

/-- **A batch** appends its entries, and leaves nothing in doubt. -/
theorem Follows.applyEntries
    (h : x.Follows es run) (hok : applyEntries names entries run x = .ok () x')
    (hnodup : (tokens (es ++ named names entries)).Nodup) :
    x'.Follows (es ++ named names entries) none := by
  induction entries generalizing x es run with
  | nil =>
    rw [named, map_nil, append_nil]
    cases run with
    | none =>
      cases hok
      exact h
    | some current =>
      cases hok
      exact h.finish
  | cons e entries ih =>
    rw [TokenTree.applyEntries] at hok
    obtain ⟨current, y, hround, hok⟩ := bind_eq_ok.mp hok
    obtain ⟨name, hname, hy⟩ := h.applyEntry hround
    have hcons : named names (e :: entries) = (name, e) :: named names entries := by
      rw [named, map_cons, hname]
      rfl
    rw [hcons, append_cons] at hnodup ⊢
    exact ih (hy (hnodup.sublist (tokens_sublist _ _))) hok hnodup

theorem Follows.apply_batch (h : x.Follows es none)
    (hok : apply_batch batch x = .ok () x')
    (hnodup : (tokens (es ++ named batch.names batch.entries)).Nodup) :
    x'.Follows (es ++ named batch.names batch.entries) none :=
  h.applyEntries hok hnodup

end TokenTree

end Ish.Index
