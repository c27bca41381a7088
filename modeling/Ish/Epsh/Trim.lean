import Ish.Epsh.Eval
import Ish.Epsh.Glob

/-!
# Trimming a value

What the four trim operators remove. The pieces a pattern is tried on are prefixes, or
suffixes, of the value's units, from the shortest or from the longest; the empty piece
is not among them.
-/

namespace Ish.Epsh

open Ish.Lib List

variable {W : Type}

/-- The first that `find?` meets is the best of those that satisfy `p`. -/
theorem find?_best {α : Type} {R p} {l : List α}
    (hl : l.Pairwise R) {a : α} (h : l.find? p = some a) :
    p a = true ∧ a ∈ l ∧ ∀ x ∈ l, p x = true → x = a ∨ R a x := by
  obtain ⟨ha, front, back, rfl, hfront⟩ := find?_eq_some_iff_append.mp h
  refine ⟨ha, mem_append_right _ mem_cons_self, fun x hx hpx => ?_⟩
  rcases mem_append.mp hx with hx | hx
  · have hnot := hfront x hx
    rw [hpx] at hnot
    cases hnot
  · rcases mem_cons.mp hx with rfl | hx
    · exact .inl rfl
    · exact .inr ((pairwise_cons.mp (pairwise_append.mp hl).2.1).1 x hx)

/-! ## Units of a text -/

theorem flatten_shellChars (text : Text) : (shellChars text).flatten = text := by
  induction text using shellChars.induct with
  | case1 => rfl
  | case2 c h => simp [shellChars, h]
  | case3 c h literal chars ih => simp [shellChars, h, ih]
  | case4 c chars h ih => rw [shellChars_cons (by simpa using h), flatten_cons, ih]; rfl

theorem shellChars_ne_nil {text unit : Text} (h : unit ∈ shellChars text) : unit ≠ [] := by
  induction text using shellChars.induct with
  | case1 => cases h
  | case2 c hc =>
    simp only [shellChars, hc, if_true, mem_singleton] at h
    rw [h]
    exact cons_ne_nil _ _
  | case3 c hc literal chars ih =>
    simp only [shellChars, hc, if_true, mem_cons] at h
    rcases h with rfl | h
    · exact cons_ne_nil _ _
    · exact ih h
  | case4 c chars hc ih =>
    rw [shellChars_cons (by simpa using hc), mem_cons] at h
    rcases h with rfl | h
    · exact cons_ne_nil _ _
    · exact ih h

/-! ## The piece to remove -/

/-- Of the pieces of up to `n` units that satisfy `p`, the one of `size` is the
longest or the shortest. -/
structure Extreme (longest : Bool) (n : Nat) (p : Nat → Bool) (size : Nat) : Prop where
  le : size ≤ n
  holds : p size = true
  best : ∀ other ≤ n, p other = true → if longest then other ≤ size else size ≤ other

/-- `result` is `value` without the longest or shortest prefix that matches, the empty one
included; all of it if none does. -/
def RemovesPrefix (longest : Bool) (matched : Text → Bool) (value result : Text) : Prop :=
  (∃ size, Extreme longest (shellChars value).length
      (fun n => matched ((shellChars value).take n).flatten) size ∧
    result = ((shellChars value).drop size).flatten) ∨
  (∀ size ≤ (shellChars value).length, matched ((shellChars value).take size).flatten = false) ∧
    result = value

/-- The units of `value` that are left when a suffix of `size` is removed. -/
def keptBySuffix (value : Text) (size : Nat) : Nat := (shellChars value).length - size

/-- The same with suffixes. -/
def RemovesSuffix (longest : Bool) (matched : Text → Bool) (value result : Text) : Prop :=
  (∃ size, Extreme longest (shellChars value).length
      (fun n => matched ((shellChars value).drop (keptBySuffix value n)).flatten) size ∧
    result = ((shellChars value).take (keptBySuffix value size)).flatten) ∨
  (∀ size ≤ (shellChars value).length,
      matched ((shellChars value).drop (keptBySuffix value size)).flatten = false) ∧
    result = value

/-- The shell with the matching of `glob.rs`. -/
def withGlobs (out : Outside W) : Outside W :=
  { out with fnmatch := fnmatchShell, hasGlobChars := hasGlobCharsShell }

/-! ## What the searches find -/

/-- The search for a piece that is not empty. -/
inductive Found (longest : Bool) (n : Nat) (p : Nat → Bool) : Option Nat → Prop
  | nothing (h : ∀ size, 1 ≤ size → size ≤ n → p size = false) : Found longest n p none
  | piece {size : Nat} (hpos : 1 ≤ size) (hle : size ≤ n) (hp : p size = true)
      (hbest : ∀ other, 1 ≤ other → other ≤ n → p other = true →
        if longest then other ≤ size else size ≤ other) : Found longest n p (some size)

theorem found_of_list {longest : Bool} {n : Nat} {l : List Nat} (p : Nat → Bool)
    (hmem : ∀ size, size ∈ l ↔ 1 ≤ size ∧ size ≤ n)
    (hl : l.Pairwise fun a b => if longest then b < a else a < b) :
    Found longest n p (l.find? p) := by
  cases hfind : l.find? p with
  | none =>
    refine .nothing fun size hpos hle => ?_
    exact Bool.eq_false_iff.mpr (find?_eq_none.mp hfind size ((hmem size).mpr ⟨hpos, hle⟩))
  | some size =>
    obtain ⟨hp, hsize, hbest⟩ := find?_best hl hfind
    obtain ⟨hpos, hle⟩ := (hmem size).mp hsize
    refine .piece hpos hle hp fun other hpos hle hother => ?_
    rcases hbest other ((hmem other).mpr ⟨hpos, hle⟩) hother with rfl | hrel
    · split <;> exact Nat.le_refl _
    · cases longest with
      | true => exact Nat.le_of_lt hrel
      | false => exact Nat.le_of_lt hrel

theorem found_prefix (longest : Bool) (n : Nat) (p : Nat → Bool) :
    Found longest n p ((if longest then ((List.range n).map (· + 1)).reverse
      else (List.range n).map (· + 1)).find? p) := by
  have hmem (size : Nat) : size ∈ (List.range n).map (· + 1) ↔ 1 ≤ size ∧ size ≤ n := by
    simp only [mem_map, mem_range]
    constructor
    · rintro ⟨i, hi, rfl⟩
      omega
    · intro h
      exact ⟨size - 1, by omega, by omega⟩
  have hsorted : ((List.range n).map (· + 1)).Pairwise (· < ·) :=
    pairwise_map.mpr ((pairwise_lt_range).imp fun h => Nat.succ_lt_succ h)
  cases longest with
  | false => exact found_of_list p hmem hsorted
  | true =>
    refine found_of_list p (fun size => ?_) (pairwise_reverse.mpr hsorted)
    rw [if_pos rfl, mem_reverse]
    exact hmem size

theorem found_suffix (longest : Bool) (n : Nat) (q : Nat → Bool) :
    Found longest n (fun size => q (n - size))
      (((if longest then List.range n else (List.range n).reverse).find? q).map (n - ·)) := by
  have hmem (size : Nat) : size ∈ (List.range n).map (n - ·) ↔ 1 ≤ size ∧ size ≤ n := by
    simp only [mem_map, mem_range]
    constructor
    · rintro ⟨i, hi, rfl⟩
      omega
    · intro h
      exact ⟨n - size, by omega, by omega⟩
  have hsorted : ((List.range n).map (n - ·)).Pairwise (fun a b => b < a) := by
    refine pairwise_map.mpr (List.Pairwise.imp_of_mem ?_ pairwise_lt_range)
    intro a b ha hb hlt
    have hb := mem_range.mp hb
    omega
  have hfind (l : List Nat) (hl : ∀ i ∈ l, i < n) :
      (l.find? q).map (n - ·) = (l.map (n - ·)).find? fun size => q (n - size) := by
    rw [find?_map]
    congr 1
    induction l with
    | nil => rfl
    | cons i l ih =>
      have hi := hl i mem_cons_self
      have hback : n - (n - i) = i := by omega
      rw [find?_cons, find?_cons, ih fun j hj => hl j (mem_cons_of_mem i hj),
        Function.comp_apply, hback]
  cases longest with
  | true =>
    rw [if_pos rfl, hfind _ fun i hi => mem_range.mp hi]
    exact found_of_list _ hmem hsorted
  | false =>
    rw [if_neg Bool.false_ne_true, hfind _ fun i hi => mem_range.mp (mem_reverse.mp hi)]
    refine found_of_list _ (fun size => ?_) ?_
    · rw [map_reverse, mem_reverse]
      exact hmem size
    · rw [map_reverse]
      exact pairwise_reverse.mpr hsorted

/-- What the code removes of a value is what a search finds. -/
theorem trimPrefix_found (out : Outside W) (value pattern : Text) (greedy : Bool) :
    ∃ found, Found greedy (shellChars value).length
        (fun n => out.fnmatch pattern ((shellChars value).take n).flatten) found ∧
      trimPrefix out value pattern greedy =
        match found with
        | some size => ((shellChars value).drop size).flatten
        | none => value :=
  ⟨_, found_prefix greedy _ _, rfl⟩

theorem trimSuffix_found (out : Outside W) (value pattern : Text) (greedy : Bool) :
    ∃ found, Found greedy (shellChars value).length
        (fun n => out.fnmatch pattern ((shellChars value).drop (keptBySuffix value n)).flatten)
        found ∧
      trimSuffix out value pattern greedy =
        match found with
        | some size => ((shellChars value).take (keptBySuffix value size)).flatten
        | none => value := by
  refine ⟨_, found_suffix greedy (shellChars value).length
    (fun i => out.fnmatch pattern ((shellChars value).drop i).flatten), ?_⟩
  have hrun : trimSuffix out value pattern greedy =
      match (if greedy then List.range (shellChars value).length
          else (List.range (shellChars value).length).reverse).find?
          (fun i => out.fnmatch pattern ((shellChars value).drop i).flatten) with
      | some i => ((shellChars value).take i).flatten
      | none => value := rfl
  rw [hrun]
  cases hfind : (if greedy then List.range (shellChars value).length
      else (List.range (shellChars value).length).reverse).find?
      (fun i => out.fnmatch pattern ((shellChars value).drop i).flatten) with
  | none => rfl
  | some i =>
    have hi : i < (shellChars value).length := by
      have hmem := mem_of_find?_eq_some hfind
      split at hmem
      · exact mem_range.mp hmem
      · exact mem_range.mp (mem_reverse.mp hmem)
    have hback : keptBySuffix value ((shellChars value).length - i) = i := by
      unfold keptBySuffix
      omega
    rw [Option.map_some]
    dsimp only
    rw [hback]

/-! ## What the operators remove -/

/-- A search without the empty piece finds what is asked for, unless the shortest piece
is the empty one and another one matches as well. -/
theorem Found.extreme
    (h : Found longest n p found)
    (hcondition : longest = false → p 0 = true → ∀ size, 1 ≤ size → size ≤ n → p size = false) :
    match found with
    | some size => Extreme longest n p size
    | none => Extreme longest n p 0 ∨ ∀ size ≤ n, p size = false := by
  cases h with
  | @piece size hpos hle hp hbest =>
    refine ⟨hle, hp, fun other hother hpo => ?_⟩
    rcases Nat.eq_zero_or_pos other with rfl | hpos'
    · cases longest with
      | true => exact Nat.zero_le _
      | false =>
        rw [hcondition rfl hpo size hpos hle] at hp
        cases hp
    · exact hbest other hpos' hother hpo
  | nothing hnone =>
    have hpieces (size : Nat) (hle : size ≤ n) (hp : p size = true) : size = 0 := by
      by_contra hne
      rw [hnone size (Nat.pos_of_ne_zero hne) hle] at hp
      cases hp
    cases h0 : p 0 with
    | true =>
      refine .inl ⟨Nat.zero_le n, h0, fun other hother hpo => ?_⟩
      rw [hpieces other hother hpo]
      split <;> exact Nat.le_refl 0
    | false =>
      refine .inr fun size hle => ?_
      rcases Nat.eq_zero_or_pos size with rfl | hpos
      · exact h0
      · exact hnone size hpos hle

theorem length_flatten_split (units : List Text) (n : Nat) :
    (units.take n).flatten.length + (units.drop n).flatten.length = units.flatten.length := by
  rw [← length_append, ← flatten_append, take_append_drop]

/-- The units of a text that are left and those that are removed. -/
theorem length_flatten_take_drop (value : Text) (n : Nat) :
    ((shellChars value).take n).flatten.length + ((shellChars value).drop n).flatten.length =
      value.length := by
  rw [length_flatten_split, flatten_shellChars]

theorem length_flatten_pos {value : Text} {units : List Text} (h : units ⊆ shellChars value)
    (hne : units ≠ []) : 0 < units.flatten.length := by
  cases units with
  | nil => exact absurd rfl hne
  | cons unit units =>
    have hunit := shellChars_ne_nil (h mem_cons_self)
    have hpos := length_pos_iff.mpr hunit
    rw [flatten_cons, length_append]
    omega

theorem drop_ne {value : Text} (hpos : 1 ≤ size)
    (hle : size ≤ (shellChars value).length) : ((shellChars value).drop size).flatten ≠ value := by
  intro h
  have hsum := length_flatten_take_drop value size
  have hnonempty : (shellChars value).take size ≠ [] := by
    intro hnil
    have hlen := congrArg List.length hnil
    rw [length_take, length_nil] at hlen
    omega
  have htaken := length_flatten_pos (take_subset size (shellChars value)) hnonempty
  rw [h] at hsum
  omega

theorem take_ne {value : Text} (hpos : 1 ≤ size)
    (hle : size ≤ (shellChars value).length) :
    ((shellChars value).take (keptBySuffix value size)).flatten ≠ value := by
  intro h
  have hsum := length_flatten_take_drop value (keptBySuffix value size)
  have hnonempty : (shellChars value).drop (keptBySuffix value size) ≠ [] := by
    intro hnil
    have hlen := congrArg List.length hnil
    rw [length_drop, length_nil] at hlen
    unfold keptBySuffix at hlen
    omega
  have hdropped :=
    length_flatten_pos (drop_subset (keptBySuffix value size) (shellChars value)) hnonempty
  rw [h] at hsum
  omega

/-- What a search finds is what is asked for exactly if the shortest piece is not the
empty one with another one to be found. -/
theorem Found.removes_iff {found : Option Nat}
    {value result : Text} {left : Nat → Text}
    (hresult : result = match found with
      | some size => left size
      | none => value)
    (h : Found longest n p found)
    (hwhole : left 0 = value) (hpart : ∀ size, 1 ≤ size → size ≤ n → left size ≠ value) :
    ((∃ size, Extreme longest n p size ∧ result = left size) ∨
      (∀ size ≤ n, p size = false) ∧ result = value) ↔
      (longest = false → p 0 = true → ∀ size, 1 ≤ size → size ≤ n → p size = false) := by
  constructor
  · intro hremoves hshort h0
    subst hshort
    rcases hremoves with ⟨size, hextreme, hleft⟩ | ⟨hnone, -⟩
    · -- the shortest piece is the empty one, so that nothing has been removed
      obtain rfl : size = 0 := Nat.le_zero.mp (hextreme.best 0 (Nat.zero_le n) h0)
      rw [hwhole] at hleft
      cases h with
      | nothing hnone => exact hnone
      | piece hpos hle => exact absurd (hresult.symm.trans hleft) (hpart _ hpos hle)
    · rw [hnone 0 (Nat.zero_le n)] at h0
      cases h0
  · intro hcondition
    have hextreme := h.extreme hcondition
    cases found with
    | some size => exact .inl ⟨size, hextreme, hresult⟩
    | none =>
      rcases hextreme with hextreme | hnone
      · exact .inl ⟨0, hextreme, hresult.trans hwhole.symm⟩
      · exact .inr ⟨hnone, hresult⟩

theorem Found.sizes_le
    (hshort : Found false n p short) (hlong : Found true n p long) :
    short.getD 0 ≤ long.getD 0 := by
  cases hshort with
  | nothing h => exact Nat.zero_le _
  | piece hpos hle hp hbest =>
    cases hlong with
    | nothing h =>
      rw [h _ hpos hle] at hp
      cases hp
    | piece hpos' hle' hp' hbest' => exact hbest' _ hpos hle hp

theorem keptBySuffix_zero (value : Text) :
    ((shellChars value).take (keptBySuffix value 0)).flatten = value := by
  rw [keptBySuffix, Nat.sub_zero, take_length, flatten_shellChars]

theorem drop_zero_flatten (value : Text) : ((shellChars value).drop 0).flatten = value := by
  rw [drop_zero, flatten_shellChars]

section

variable (out : Outside W) (value pattern : Text)

theorem trimPrefix_removes_iff (longest : Bool) :
    RemovesPrefix longest (out.fnmatch pattern) value (trimPrefix out value pattern longest) ↔
      (longest = false → out.fnmatch pattern [] = true →
        ∀ n, 1 ≤ n → n ≤ (shellChars value).length →
          out.fnmatch pattern ((shellChars value).take n).flatten = false) := by
  obtain ⟨found, hfound, hresult⟩ := trimPrefix_found out value pattern longest
  exact Found.removes_iff hresult hfound (drop_zero_flatten value) fun _ hpos hle =>
    drop_ne hpos hle

theorem trimSuffix_removes_iff (longest : Bool) :
    RemovesSuffix longest (out.fnmatch pattern) value (trimSuffix out value pattern longest) ↔
      (longest = false → out.fnmatch pattern [] = true →
        ∀ n, 1 ≤ n → n ≤ (shellChars value).length →
          out.fnmatch pattern ((shellChars value).drop (keptBySuffix value n)).flatten = false) := by
  obtain ⟨found, hfound, hresult⟩ := trimSuffix_found out value pattern longest
  have hempty : ((shellChars value).drop (keptBySuffix value 0)).flatten = [] := by
    rw [keptBySuffix, Nat.sub_zero, drop_length, flatten_nil]
  have hremoves := Found.removes_iff hresult hfound (keptBySuffix_zero value)
    fun _ hpos hle => take_ne hpos hle
  rw [hempty] at hremoves
  exact hremoves

theorem trimPrefix_length_le :
    (trimPrefix out value pattern true).length ≤ (trimPrefix out value pattern false).length := by
  obtain ⟨long, hlong, htrue⟩ := trimPrefix_found out value pattern true
  obtain ⟨short, hshort, hfalse⟩ := trimPrefix_found out value pattern false
  have hleft (found : Option Nat) : (match found with
      | some size => ((shellChars value).drop size).flatten
      | none => value) = ((shellChars value).drop (found.getD 0)).flatten := by
    cases found with
    | none => exact (drop_zero_flatten value).symm
    | some size => rfl
  rw [htrue, hfalse, hleft, hleft]
  have hsplit := length_flatten_split ((shellChars value).drop (short.getD 0))
    (long.getD 0 - short.getD 0)
  rw [drop_drop, Nat.add_sub_cancel' (hshort.sizes_le hlong)] at hsplit
  omega

theorem trimSuffix_length_le :
    (trimSuffix out value pattern true).length ≤ (trimSuffix out value pattern false).length := by
  obtain ⟨long, hlong, htrue⟩ := trimSuffix_found out value pattern true
  obtain ⟨short, hshort, hfalse⟩ := trimSuffix_found out value pattern false
  have hleft (found : Option Nat) : (match found with
      | some size => ((shellChars value).take (keptBySuffix value size)).flatten
      | none => value) = ((shellChars value).take (keptBySuffix value (found.getD 0))).flatten := by
    cases found with
    | none => exact (keptBySuffix_zero value).symm
    | some size => rfl
  rw [htrue, hfalse, hleft, hleft]
  have hkept : keptBySuffix value (long.getD 0) ≤ keptBySuffix value (short.getD 0) :=
    Nat.sub_le_sub_left (hshort.sizes_le hlong) _
  have hsplit := length_flatten_split ((shellChars value).take (keptBySuffix value (short.getD 0)))
    (keptBySuffix value (long.getD 0))
  rw [take_take, Nat.min_eq_left hkept] at hsplit
  omega

end

/-- **What trimming removes**: the longest prefix or suffix that matches, and the shortest
one unless that is the empty one and another one matches. The small forms never remove more
than the large ones. -/
theorem trim_removes_match (out : Outside W) (value pattern : Text) :
    let matched := fnmatchShell pattern
    let prefixOf := trimPrefix (withGlobs out) value pattern
    let suffixOf := trimSuffix (withGlobs out) value pattern
    let size := (shellChars value).length
    RemovesPrefix true matched value (prefixOf true) ∧
    RemovesSuffix true matched value (suffixOf true) ∧
    (RemovesPrefix false matched value (prefixOf false) ↔
      (matched [] = true →
        ∀ n, 1 ≤ n → n ≤ size → matched ((shellChars value).take n).flatten = false)) ∧
    (RemovesSuffix false matched value (suffixOf false) ↔
      (matched [] = true →
        ∀ n, 1 ≤ n → n ≤ size →
          matched ((shellChars value).drop (keptBySuffix value n)).flatten = false)) ∧
    (prefixOf true).length ≤ (prefixOf false).length ∧
    (suffixOf true).length ≤ (suffixOf false).length := by
  refine ⟨(trimPrefix_removes_iff (withGlobs out) value pattern true).mpr nofun,
    (trimSuffix_removes_iff (withGlobs out) value pattern true).mpr nofun,
    (trimPrefix_removes_iff (withGlobs out) value pattern false).trans ?_,
    (trimSuffix_removes_iff (withGlobs out) value pattern false).trans ?_,
    trimPrefix_length_le _ value pattern, trimSuffix_length_le _ value pattern⟩
  · exact ⟨fun h => h rfl, fun h _ => h⟩
  · exact ⟨fun h => h rfl, fun h _ => h⟩

/-- A star matches the empty prefix, and the small form removes a unit. -/
theorem small_prefix_removes_unit :
    fnmatchShell ['*'] [] = true ∧
      trimPrefix (withGlobs Outside.idle) ['a', 'b'] ['*'] false = ['b'] ∧
      ¬ RemovesPrefix false (fnmatchShell ['*']) ['a', 'b']
        (trimPrefix (withGlobs Outside.idle) ['a', 'b'] ['*'] false) := by
  have hempty : fnmatchShell ['*'] [] = true := by decide +kernel
  have hone : fnmatchShell ['*'] ['a'] = true := by decide +kernel
  refine ⟨hempty, by decide +kernel, fun h => ?_⟩
  have hnone := (trimPrefix_removes_iff (withGlobs Outside.idle) ['a', 'b'] ['*'] false).mp h rfl
    hempty 1 (Nat.le_refl 1) (by decide)
  have hfalse : fnmatchShell ['*'] ['a'] = false := hnone
  rw [hone] at hfalse
  cases hfalse

end Ish.Epsh
