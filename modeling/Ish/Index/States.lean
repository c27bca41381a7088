import Ish.Index.Shape
import Ish.Index.Build
import Mathlib.Algebra.BigOperators.Group.Finset.Basic
import Mathlib.Tactic.Tauto

/-!
# States and totals

A node that is neither being scanned nor complete is spoilt, and stays so. What
spoils a node spoils all that is above it, at the latest when the run of entries
it came in is finished. The totals of a node that is not spoilt are those of the
entries below it.
-/

namespace Ish.Index

open Ish.Lib.Forest Option

/-- A state that no event makes `Complete`. -/
def NodeState.Spoilt (s : NodeState) : Prop := s ≠ .Scanning ∧ s ≠ .Complete

namespace Tree

variable {t t' t'' : Tree}

def Spoilt (t : Tree) (n : NodeId) : Prop := ∃ r, t.record n = some r ∧ r.state.Spoilt

theorem Spoilt.congr {n} (h : t.Spoilt n) (hrecord : t'.record n = t.record n) :
    t'.Spoilt n := by
  obtain ⟨r, hr, hspoilt⟩ := h
  exact ⟨r, hrecord.trans hr, hspoilt⟩

/-- `t'` is `t` but for nodes that are spoilt, with all above them. -/
structure Worsens (t t' : Tree) : Prop where
  shape : SameShape t t'
  record : ∀ n, t'.record n = t.record n ∨ ∀ a, t.Above a n → t'.Spoilt a

namespace Worsens

theorem spoilt (h : Worsens t t') {n} (hn : t.Spoilt n) : t'.Spoilt n := by
  rcases h.record n with hsame | hspoilt
  · exact hn.congr hsame
  · exact hspoilt n (.refl n)

end Worsens

theorem walkUp_spoils {f} (hf : ∀ r, (f r).shape = r.shape)
    (hspoils : ∀ r, (f r).state.Spoilt) {node : NodeId} (hl : t.Linked)
    (hnode : node < t.nodes.length) :
    Worsens t (t.walkUp f t.nodes.length (some node)) ∧
      ∀ a, t.Above a node → (t.walkUp f t.nodes.length (some node)).Spoilt a := by
  have hrecord := walkUp_record hf hl hnode hnode
  have habove : ∀ a, t.Above a node → (t.walkUp f t.nodes.length (some node)).Spoilt a := by
    intro a ha
    obtain ⟨r, hr⟩ := t.exists_record (Nat.lt_of_le_of_lt (ha.le hl.rising) hnode)
    rcases hrecord a with ⟨-, hmap⟩ | ⟨hnot, -⟩
    · exact ⟨f r, by rw [hmap, hr, map_some], hspoils r⟩
    · exact absurd ha hnot
  refine ⟨⟨walkUp_shape hf _ _ t, fun n => ?_⟩, habove⟩
  rcases hrecord n with ⟨hn, -⟩ | ⟨-, hsame⟩
  · exact .inr fun a ha => habove a (ha.trans hn)
  · exact .inl hsame

theorem incomplete_shape (r : NodeRecord) : (incomplete r).shape = r.shape := by
  rw [incomplete]
  split <;> rfl

theorem incomplete_spoilt (r : NodeRecord) : (incomplete r).state.Spoilt := by
  rw [incomplete]
  split
  · exact ⟨nofun, nofun⟩
  · rename_i h
    exact not_or.mp h

theorem mark_worsens {node : NodeId} (hl : t.Linked) (hnode : node < t.nodes.length) :
    Worsens t (t.mark_incomplete_to_root node) ∧
      ∀ a, t.Above a node → (t.mark_incomplete_to_root node).Spoilt a :=
  walkUp_spoils incomplete_shape incomplete_spoilt hl hnode

/-! ## Excluding -/

/-- **An exclusion** spoils the directory and all above it. -/
theorem exclude_worsens {node : NodeId} (reason : ExclusionReason) (hl : t.Linked)
    (hnode : node < t.nodes.length) :
    let excluded := t.set_state node (.Excluded reason)
    let marked := match (excluded.record node).bind (·.parent) with
      | some parent => excluded.mark_incomplete_to_root parent
      | none => excluded
    Worsens t marked ∧ ∀ a, t.Above a node → marked.Spoilt a := by
  intro excluded
  have hshape : SameShape t excluded := by
    refine sameShape_modify ?_ t node
    intro r
    rfl
  have hself : excluded.Spoilt node := by
    obtain ⟨r, hr⟩ := t.exists_record hnode
    have hrecord : excluded.record node = some { r with state := .Excluded reason } := by
      simp [excluded, set_state, hr, NodeStatus.into]
    exact ⟨_, hrecord, nofun, nofun⟩
  have hother : ∀ n, node ≠ n → excluded.record n = t.record n := by
    intro n hn
    simp [excluded, set_state, hn]
  have hparent : (excluded.record node).bind (·.parent) = t.parentOf node := congrFun hshape.parentOf node
  rw [hparent]
  cases hp : t.parentOf node with
  | none =>
    have habove : ∀ a, t.Above a node → excluded.Spoilt a := by
      intro a ha
      rw [Tree.Above, above_iff, hp] at ha
      obtain rfl : a = node := by simpa using ha
      exact hself
    refine ⟨⟨hshape, fun n => ?_⟩, habove⟩
    by_cases hn : node = n
    · exact .inr (hn ▸ habove)
    · exact .inl (hother n hn)
  | some p =>
    have hup := hshape.parentOf.symm ▸ hp
    have hp' : p < excluded.nodes.length := hshape.length ▸ hl.parent_lt hp
    obtain ⟨hworse, hspoilt⟩ := mark_worsens (hshape.linked hl) hp'
    have habove : ∀ a, t.Above a node → (excluded.mark_incomplete_to_root p).Spoilt a := by
      intro a ha
      rcases (above_iff_of_parent hp).mp ha with rfl | ha
      · exact hworse.spoilt hself
      · exact hspoilt a (hshape.above.mpr ha)
    refine ⟨⟨hshape.trans hworse.shape, fun n => ?_⟩, habove⟩
    by_cases hn : node = n
    · exact .inr (hn ▸ habove)
    · rcases hworse.record n with hsame | hup
      · exact .inl (hsame.trans (hother n hn))
      · exact .inr fun a ha => hup a (hshape.above.mpr ha)

end Tree

/-! ## What was received -/

/-- An entry that was received, with its name. -/
abbrev Entry := List UInt8 × ScanEntry

/-- `token` stands for `n`, by the entries that were received. -/
def Introduces (es : List Entry) (token : DirectoryToken) (n : NodeId) : Prop :=
  (token = 0 ∧ n = 0) ∨
    ∃ i e, es[i]? = some e ∧ e.2.directory_token = some token ∧ n = i + 1

/-- The tokens of the root and of the entries. -/
def tokens (es : List Entry) : List DirectoryToken :=
  0 :: es.filterMap (·.2.directory_token)

/-- A total, of apparent or of allocated bytes. -/
inductive Measure where
  | apparent
  | allocated

namespace Measure

def ofRecord : Measure → NodeRecord → Nat
  | .apparent, r => r.apparent_bytes.toNat
  | .allocated, r => r.allocated_bytes.toNat

def ofEntry : Measure → ScanEntry → Nat
  | .apparent, e => e.apparent_bytes.toNat
  | .allocated, e => e.allocated_bytes.toNat

def ofRun : Measure → TokenTree.Run → Nat
  | .apparent, run => run.apparent.toNat
  | .allocated, run => run.allocated.toNat

/-- What an entry adds to the directories above it. -/
def size (m : Measure) (e : Entry) : Nat :=
  if e.2.entry_type = .Directory then 0 else m.ofEntry e.2

/-- What a node has of its own. -/
def own (m : Measure) (es : List Entry) (n : NodeId) : Nat :=
  if n = 0 then 0 else (es[n - 1]?).elim 0 fun e => m.ofEntry e.2

open Classical in
/-- The sum of the entries below `d`. -/
noncomputable def below (m : Measure) (t : Tree) (es : List Entry) (d : NodeId) : Nat :=
  ∑ i ∈ Finset.range es.length,
    if d ≠ i + 1 ∧ t.Above d (i + 1) then (es[i]?).elim 0 m.size else 0

open Classical in
/-- What a run has not yet added to `d`. -/
noncomputable def waiting (m : Measure) (t : Tree) (d : NodeId) : Option TokenTree.Run → Nat
  | none => 0
  | some run => if t.Above d run.parent then m.ofRun run else 0

end Measure

/-! ## The invariant -/

/-- Each entry has its node. -/
structure TokenTree.Holds (es : List Entry) (x : TokenTree) : Prop where
  linked : x.tree.Linked
  length : x.tree.nodes.length = es.length + 1
  entry : ∀ i e, es[i]? = some e → ∃ r, x.tree.record (i + 1) = some r ∧
    x.tree.name (i + 1) = some e.1 ∧ r.entry_type = e.2.entry_type ∧
    r.identity = e.2.identity ∧ ∃ p, r.parent = some p ∧ Introduces es e.2.parent p
  node : ∀ token n, x.node token = some n ↔ Introduces es token n

namespace Tree

variable {t t' : Tree}

/-- A node is spoilt, or will be when the run is finished. -/
def Doubtful (t : Tree) (run : Option TokenTree.Run) (n : NodeId) : Prop :=
  t.Spoilt n ∨ ∃ current, run = some current ∧ (current.problem = true ∨ current.fits = false) ∧
    t.Above n current.parent

/-- The states and totals fit the entries. -/
structure Judged (es : List Entry) (t : Tree) (run : Option TokenTree.Run) : Prop where
  sent : ∀ i e, es[i]? = some e → e.2.state.into.Spoilt → t.Spoilt (i + 1)
  marked : ∀ n r p, t.record n = some r → r.state ≠ .Complete → r.parent = some p →
    ∀ a, t.Above a p → t.Doubtful run a
  totals : ∀ m : Measure, ∀ d r, t.record d = some r → t.Doubtful run d ∨
    m.ofRecord r + m.waiting t d run = m.own es d + m.below t es d

@[simp] theorem doubtful_none {n} : t.Doubtful none n ↔ t.Spoilt n := by
  simp [Doubtful]

theorem doubtful_clean {run} (hproblem : run.problem = false)
    (hfits : run.fits = true) {n} : t.Doubtful (some run) n ↔ t.Spoilt n := by
  simp [Doubtful, hproblem, hfits]

theorem SameShape.below (h : SameShape t t') (m : Measure) (es : List Entry) (d : NodeId) :
    m.below t' es d = m.below t es d := by
  simp only [Measure.below]
  refine Finset.sum_congr rfl fun i _ => ?_
  by_cases hbelow : d ≠ i + 1 ∧ t.Above d (i + 1)
  · rw [if_pos hbelow, if_pos ⟨hbelow.1, h.above.mpr hbelow.2⟩]
  · rw [if_neg hbelow, if_neg fun hbelow' => hbelow ⟨hbelow'.1, h.above.mp hbelow'.2⟩]

theorem SameShape.parent (h : SameShape t t') {n r r'}
    (hr : t.record n = some r) (hr' : t'.record n = some r') : r'.parent = r.parent := by
  have hfield := h.field (·.parent) (fun _ => rfl) n
  rw [hr, hr', map_some, map_some] at hfield
  exact some.inj hfield

theorem parentOf_eq {n r} (hr : t.record n = some r) :
    t.parentOf n = r.parent := by
  rw [parentOf, hr, bind_some]

variable {es : List Entry} {run : Option TokenTree.Run}

theorem Judged.worsen (h : t.Judged es run) (hw : Worsens t t')
    (hspoilt : ∀ current, run = some current → ∀ a, t.Above a current.parent → t'.Spoilt a) :
    t'.Judged es none := by
  have hdoubt : ∀ n, t.Doubtful run n → t'.Spoilt n := by
    rintro n (hn | ⟨current, hrun, -, habove⟩)
    · exact hw.spoilt hn
    · exact hspoilt current hrun n habove
  refine ⟨fun i e he hstate => hw.spoilt (h.sent i e he hstate), ?_, ?_⟩
  · intro n r' p hr' hstate hp a ha
    rw [doubtful_none]
    have ha' := hw.shape.above.mp ha
    rcases hw.record n with hsame | hspoils
    · exact hdoubt a (h.marked n r' p (hsame ▸ hr') hstate hp a ha')
    · have hparent : t.parentOf n = some p := by
        rw [← hw.shape.parentOf, parentOf_eq hr', hp]
      exact hspoils a (ha'.trans (.of_parent hparent))
  · intro m d r' hr'
    rw [doubtful_none]
    rcases hw.record d with hsame | hspoils
    · rcases h.totals m d r' (hsame ▸ hr') with hd | htotal
      · exact .inl (hdoubt d hd)
      · cases run with
        | none =>
          rw [hw.shape.below]
          exact .inr htotal
        | some current =>
          by_cases habove : t.Above d current.parent
          · exact .inl (hspoilt current rfl d habove)
          · rw [Measure.waiting, if_neg habove] at htotal
            rw [hw.shape.below]
            exact .inr htotal
    · exact .inl (hspoils d (.refl d))

variable {current : TokenTree.Run}

theorem Judged.defer (h : t.Judged es none)
    (hspoilt : ∀ a, t.Above a current.parent → t.Spoilt a) : t.Judged es (some current) := by
  refine ⟨h.sent, ?_, ?_⟩
  · intro n r p hr hstate hp a ha
    exact .inl (doubtful_none.mp (h.marked n r p hr hstate hp a ha))
  · intro m d r hr
    by_cases habove : t.Above d current.parent
    · exact .inl (.inl (hspoilt d habove))
    · rcases h.totals m d r hr with hd | htotal
      · exact .inl (.inl (doubtful_none.mp hd))
      · rw [Measure.waiting, if_neg habove]
        exact .inr htotal

theorem grown_shape (apparent allocated : UInt64) (r : NodeRecord) :
    (grown apparent allocated r).shape = r.shape := rfl

theorem ofRecord_grown {m : Measure} {r}
    (hroom : r.apparent_bytes.toNat + current.apparent.toNat < 2 ^ 64 ∧
      r.allocated_bytes.toNat + current.allocated.toNat < 2 ^ 64) :
    m.ofRecord (grown current.apparent current.allocated r) = m.ofRecord r + m.ofRun current := by
  cases m with
  | apparent =>
    simp only [Measure.ofRecord, Measure.ofRun, grown, UInt64.toNat_add]
    exact Nat.mod_eq_of_lt hroom.1
  | allocated =>
    simp only [Measure.ofRecord, Measure.ofRun, grown, UInt64.toNat_add]
    exact Nat.mod_eq_of_lt hroom.2

/-- **A run that fits** is added to the totals above it. -/
theorem Judged.grow (h : t.Judged es (some current)) (hl : t.Linked)
    (hparent : current.parent < t.nodes.length)
    (hroom : ∀ n r, t.Above n current.parent → t.record n = some r →
      r.apparent_bytes.toNat + current.apparent.toNat < 2 ^ 64 ∧
        r.allocated_bytes.toNat + current.allocated.toNat < 2 ^ 64)
    (hclean : ∀ n, t.Doubtful (some current) n → t.Spoilt n) :
    (t.walkUp (grown current.apparent current.allocated) t.nodes.length
      (some current.parent)).Judged es none := by
  have hshape := walkUp_shape (grown_shape current.apparent current.allocated) t.nodes.length
    (some current.parent) t
  have hrecord := walkUp_record (grown_shape current.apparent current.allocated) hl hparent hparent
  generalize t.walkUp _ _ _ = t' at hshape hrecord ⊢
  have hspoilt : ∀ n, t.Spoilt n → t'.Spoilt n := by
    rintro n ⟨r, hr, hstate⟩
    rcases hrecord n with ⟨-, hmap⟩ | ⟨-, hsame⟩
    · rw [hr, map_some] at hmap
      exact ⟨_, hmap, hstate⟩
    · exact ⟨r, hsame.trans hr, hstate⟩
  refine ⟨fun i e he hstate => hspoilt _ (h.sent i e he hstate), ?_, ?_⟩
  · intro n r' p hr' hstate hp a ha
    rw [doubtful_none]
    apply hspoilt
    apply hclean
    rcases hrecord n with ⟨-, hmap⟩ | ⟨-, hsame⟩
    · rw [hr', eq_comm, map_eq_some_iff] at hmap
      obtain ⟨r, hr, rfl⟩ := hmap
      exact h.marked n r p hr hstate hp a (hshape.above.mp ha)
    · exact h.marked n r' p (hsame ▸ hr') hstate hp a (hshape.above.mp ha)
  · intro m d r' hr'
    rw [doubtful_none, hshape.below]
    rcases hrecord d with ⟨habove, hmap⟩ | ⟨hnot, hsame⟩
    · rw [hr', eq_comm, map_eq_some_iff] at hmap
      obtain ⟨r, hr, rfl⟩ := hmap
      refine (h.totals m d r hr).imp (fun hd => hspoilt d (hclean d hd)) fun htotal => ?_
      rw [Measure.waiting, if_pos habove] at htotal
      rw [ofRecord_grown (hroom d r habove hr)]
      exact htotal
    · refine (h.totals m d r' (hsame ▸ hr')).imp (fun hd => hspoilt d (hclean d hd)) fun htotal => ?_
      rwa [Measure.waiting, if_neg hnot] at htotal

theorem overflowed_spoilt (r : NodeRecord) : (overflowed r).state.Spoilt := ⟨nofun, nofun⟩

/-- **Adding to the ancestors** either makes room for a run everywhere above it,
or spoils all of them. -/
theorem Judged.add_to_ancestors (h : t.Judged es (some current))
    (hl : t.Linked) (hparent : current.parent < t.nodes.length)
    (hclean : ∀ n, t.Doubtful (some current) n → t.Spoilt n) :
    let (fits, t') := t.add_to_ancestors current.parent current.apparent current.allocated
    SameShape t t' ∧ t'.Judged es none ∧
      (fits = false → ∀ a, t.Above a current.parent → t'.Spoilt a) := by
  obtain ⟨fits, heq, hroom⟩ := fitsUp_eq current.apparent current.allocated hl hparent
    hparent
  rw [Tree.add_to_ancestors, heq]
  cases fits with
  | true =>
    exact ⟨walkUp_shape (grown_shape _ _) _ _ t, h.grow hl hparent (hroom.mp rfl) hclean, nofun⟩
  | false =>
    obtain ⟨hworse, hspoilt⟩ := walkUp_spoils (f := overflowed) (fun _ => rfl)
      overflowed_spoilt hl hparent
    refine ⟨hworse.shape, h.worsen hworse ?_, fun _ => hspoilt⟩
    rintro _ ⟨⟩
    exact hspoilt

end Tree

end Ish.Index
