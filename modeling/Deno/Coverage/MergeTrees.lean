import Deno.Coverage.MergeChildren

/-!
# Merging range trees

Merging well-formed trees of one range yields a well-formed tree of that range, whose value is
the sum of theirs. Neither the order of the trees nor that of the hash map makes a difference to
the tree itself. Each row of the children is shallower than the trees it comes from, so that the
depths of the trees bound the recursion.
-/

namespace Deno

open Core RangeTree List RangeTree

variable {κ : Type}

def SameRange (s e : ℕ) (ts : List (RangeTree κ)) : Prop :=
  ∀ t ∈ ts, t.WF ∧ t.start = s ∧ t.stop = e

variable {ts : List (RangeTree κ)} {s e : ℕ}

lemma SameRange.children (h : SameRange s e ts) : ∀ cs ∈ ts.map children, ForestWF s e cs := by
  intro cs hcs
  obtain ⟨t, ht, rfl⟩ := List.mem_map.mp hcs
  obtain ⟨hwf, rfl, rfl⟩ := h t ht
  exact hwf.children

variable [AddCommGroup κ] {lo hi bound : ℕ}

lemma RowWF.sameRange {row : Row κ} (h : RowWF lo hi bound row) :
    SameRange row.start row.stop row.groups := by
  intro t ht
  obtain ⟨ts, hts, hg⟩ := List.mem_filterMap.mp ht
  exact ⟨group_wf (h.lefts ts hts) hg h.lt, group_range hg⟩

lemma RowWF.value {row : Row κ} (h : RowWF lo hi bound row) (x : ℕ) :
    (row.groups.map (valueAt x)).sum = (row.lefts.map (forestValue x)).sum := by
  have hlefts := h.lefts
  rw [Row.groups]
  generalize row.lefts = lefts at hlefts
  induction lefts with
  | nil => rfl
  | cons ts lefts ih =>
    have hih := ih fun us hus => hlefts us (mem_cons_of_mem _ hus)
    rw [filterMap_cons, map_cons, sum_cons, ← hih]
    cases hg : group row.start row.stop ts with
    | some g =>
      rw [map_cons, sum_cons, valueAt_group (hlefts ts mem_cons_self) hg]
    | none =>
      have hnil : ts = [] := by
        by_contra hne
        have := group_isSome (s := row.start) (e := row.stop) hne
        rw [hg] at this
        cases this
      rw [hnil, forestValue_nil, zero_add]

variable (ord : IterOrder (ℕ × List (RangeTree κ)))

@[simp] lemma mergeRangeTrees_nil (fuel : ℕ) : mergeRangeTrees ord fuel [] = none := by
  cases fuel <;> rfl

@[simp] lemma mergeRangeTrees_singleton (fuel : ℕ)
    (t : RangeTree κ) : mergeRangeTrees ord (fuel + 1) [t] = some t := rfl

variable {rows : List (Row κ)}

section

variable (ord : IterOrder (ℕ × List (RangeTree κ)))

/-- Two trees or more: the differences are added, and the children are merged row by row. -/
lemma mergeRangeTrees_eq (fuel : ℕ)
    (hts : SameRange s e ts) (hlen : 2 ≤ ts.length) (hsweep : Sweep (ts.map children) rows) :
    mergeRangeTrees ord (fuel + 1) ts = some (.node s e (ts.map delta).sum
      (rows.filterMap fun row => mergeRangeTrees ord fuel row.groups)) := by
  match ts, hlen with
  | t :: u :: ts, _ =>
    obtain ⟨_, hs, he⟩ := hts t mem_cons_self
    rw [mergeRangeTrees, mergeRangeTreeChildren_eq ord (mergeRangeTrees_nil ord fuel)
      hts.children hsweep, hs, he, sum_eq_foldl, foldl_map]
    simp

/-! ### Values add up -/

/-- Trees for rows that follow one another form a forest with their values. -/
lemma forest_of_rows {merge : List (RangeTree κ) → Option (RangeTree κ)}
    (hrows : ∀ row ∈ rows, RowWF lo hi bound row)
    (hpair : rows.Pairwise fun r r' => r.stop ≤ r'.start)
    (hmerge : ∀ row ∈ rows, ∃ t, merge row.groups = some t ∧
      Realizes row.start row.stop (fun x => (row.groups.map (valueAt x)).sum) t) :
    ForestWF lo hi (rows.filterMap fun row => merge row.groups) ∧ ∀ x,
      forestValue x (rows.filterMap fun row => merge row.groups) =
        (rows.map fun row => (row.lefts.map (forestValue x)).sum).sum := by
  induction rows generalizing lo with
  | nil => simp
  | cons row rows ih =>
    obtain ⟨hnext, hpair'⟩ := List.pairwise_cons.mp hpair
    have hrow := hrows row mem_cons_self
    obtain ⟨t, ht, hwf, hs, he, hvalue⟩ := hmerge row mem_cons_self
    have hrows' : ∀ r ∈ rows, RowWF row.stop hi bound r := fun r hr =>
      { hrows r (mem_cons_of_mem _ hr) with lo_le := hnext r hr }
    obtain ⟨hforest, hvalues⟩ := ih hrows' hpair' fun r hr => hmerge r (mem_cons_of_mem _ hr)
    simp only [filterMap_cons, ht]
    refine ⟨forestWF_cons.mpr ⟨hs ▸ hrow.lo_le, hwf, he ▸ hrow.le_hi, he ▸ hforest⟩, fun x => ?_⟩
    rw [forestValue_cons, hvalues, hvalue, hrow.value, map_cons, sum_cons]

/-- The value of a node is the sum of the values of nodes whose differences and children it sums
up. -/
lemma valueAt_sum (hts : SameRange s e ts) {cs : List (RangeTree κ)} (x : ℕ)
    (hcs : forestValue x cs = ((ts.map children).map (forestValue x)).sum) :
    (node s e (ts.map delta).sum cs).valueAt x = (ts.map (valueAt x)).sum := by
  have hvalue : ts.map (valueAt x) = ts.map fun t =>
      if s ≤ x ∧ x < e then t.delta + forestValue x t.children else 0 := by
    refine map_congr_left fun t ht => ?_
    obtain ⟨_, rfl, rfl⟩ := hts t ht
    exact valueAt_eq x t
  rw [valueAt_node, hcs, hvalue, map_map]
  split_ifs
  · exact (sum_map_add).symm
  · simp

/-- With fuel for the depths of the trees, merging yields a well-formed tree of their range whose
value is the sum of theirs. -/
theorem mergeRangeTrees_realizes {fuel s e : ℕ}
    (hts : SameRange s e ts) (hne : ts ≠ []) (hfuel : childDepths ts < fuel) :
    ∃ t, mergeRangeTrees ord fuel ts = some t ∧
      Realizes s e (fun x => (ts.map (valueAt x)).sum) t := by
  induction fuel generalizing s e ts with
  | zero => exact absurd hfuel (Nat.not_lt_zero _)
  | succ fuel ih =>
    match ts, hne with
    | [t], _ =>
      obtain ⟨hwf, hs, he⟩ := hts t mem_cons_self
      exact ⟨t, rfl, hwf, hs, he, by simp⟩
    | t :: u :: us, _ =>
      generalize hall : t :: u :: us = ts at hts hfuel
      have hlen : 2 ≤ ts.length := by simp [← hall]
      obtain ⟨rows, hsweep⟩ := exists_sweep hts.children
      obtain ⟨hrows, hpair⟩ := hsweep.rowWF hts.children
      -- the rows are shallower than the trees
      have hdepth : ((ts.map children).map forestDepth).sum = childDepths ts := by
        rw [map_map]
        rfl
      have hmerge : ∀ row ∈ rows, ∃ t, mergeRangeTrees ord fuel row.groups = some t ∧
          Realizes row.start row.stop (fun x => (row.groups.map (valueAt x)).sum) t := by
        intro row hrow
        have h := hrows row hrow
        refine ih h.sameRange h.nonempty ?_
        have := h.depth
        omega
      obtain ⟨hforest, hvalues⟩ := forest_of_rows hrows hpair hmerge
      obtain ⟨hwf, hs, he⟩ := hts t (by simp [← hall])
      refine ⟨_, mergeRangeTrees_eq ord fuel hts hlen hsweep, ?_, rfl, rfl, fun x => ?_⟩
      · exact wf_node.mpr ⟨hs ▸ he ▸ hwf.lt, hforest⟩
      · exact valueAt_sum hts x ((hvalues x).trans (hsweep.value x))

end

/-! ### The order does not matter -/

omit [AddCommGroup κ] in
lemma filterMap_eq_of_forall₂ {α β γ : Type} {R : α → β → Prop} {f : α → Option γ}
    {g : β → Option γ} {as : List α} {bs : List β} (h : List.Forall₂ R as bs)
    (hfg : ∀ a ∈ as, ∀ b, R a b → f a = g b) : as.filterMap f = bs.filterMap g := by
  induction h with
  | nil => rfl
  | @cons a b as bs hab _ ih =>
    rw [filterMap_cons, filterMap_cons, hfg a mem_cons_self b hab,
      ih fun a' ha' => hfg a' (mem_cons_of_mem _ ha')]

/-- Merging the same trees in another order, with the hash map iterated in another order, yields
the same tree. -/
theorem mergeRangeTrees_perm (ord ord' : IterOrder (ℕ × List (RangeTree κ))) (fuel : ℕ)
    {ts ts' : List (RangeTree κ)} (hts : SameRange s e ts) (hperm : ts.Perm ts') :
    mergeRangeTrees ord fuel ts = mergeRangeTrees ord' fuel ts' := by
  induction fuel generalizing s e ts ts' with
  | zero => rfl
  | succ fuel ih =>
    match ts with
    | [] => rw [List.nil_perm.mp hperm, mergeRangeTrees_nil, mergeRangeTrees_nil]
    | [t] =>
      rw [← List.singleton_perm.mp hperm, mergeRangeTrees_singleton, mergeRangeTrees_singleton]
    | t :: u :: us =>
      generalize hall : t :: u :: us = ts at hts hperm
      have hlen : 2 ≤ ts.length := by simp [← hall]
      have hts' : SameRange s e ts' := fun t ht => hts t (hperm.mem_iff.mpr ht)
      obtain ⟨rows, hsweep⟩ := exists_sweep hts.children
      obtain ⟨rows', hsweep', hrows⟩ := hsweep.perm (hperm.map children)
      rw [mergeRangeTrees_eq ord fuel hts hlen hsweep,
        mergeRangeTrees_eq ord' fuel hts' (hperm.length_eq ▸ hlen) hsweep',
        (hperm.map delta).sum_eq]
      have hsame : (rows.filterMap fun row => mergeRangeTrees ord fuel row.groups) =
          rows'.filterMap fun row => mergeRangeTrees ord' fuel row.groups := by
        refine filterMap_eq_of_forall₂ hrows fun row hrow row' h => ?_
        obtain ⟨hs, he, hlefts⟩ := h
        refine ih ((hsweep.rowWF hts.children).1 row hrow).sameRange ?_
        rw [Row.groups, hs, he]
        exact hlefts.filterMap _
      rw [hsame]

end Deno
