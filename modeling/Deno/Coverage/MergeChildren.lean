import Deno.Coverage.EventSweep

/-!
# Merging the children of several trees

`merge_range_tree_children` sweeps the forests of the children into rows and merges the trees of
each row: for every sweep of the forests, whatever the order of the hash map, the result is the
list of the merged rows.
-/

namespace Deno

open Core RangeTree List RangeTree

variable {κ : Type}

/-! ### The start events -/

/-- The children of the parents with their starts and the indices of their parents. -/
def childPairs (trees : List (RangeTree κ)) (n : ℕ) : List (ℕ × ℕ × RangeTree κ) :=
  (trees.zipIdx n).flatMap fun (tree, parentIndex) =>
    tree.children.map fun child => (child.start, (parentIndex, child))

variable {n : ℕ}

lemma childPairs_start {trees : List (RangeTree κ)} {p : ℕ × ℕ × RangeTree κ}
    (h : p ∈ childPairs trees n) : p.2.2.start = p.1 := by
  obtain ⟨_, _, hp⟩ := List.mem_flatMap.mp h
  obtain ⟨_, _, rfl⟩ := List.mem_map.mp hp
  rfl

lemma treesOf_childPairs (j : ℕ) (trees : List (RangeTree κ)) (n : ℕ) :
    treesOf j ((childPairs trees n).map Prod.snd) =
      if n ≤ j then (trees.map children).getD (j - n) [] else [] := by
  have hself : ∀ (k : ℕ) (cs : List (RangeTree κ)),
      treesOf j (cs.map fun c => (k, c)) = if k = j then cs else [] := by
    intro k cs
    by_cases hj : k = j <;> simp [treesOf, filter_map, Function.comp_def, hj]
  induction trees generalizing n with
  | nil => simp [childPairs]
  | cons t trees ih =>
    have hcons : (childPairs (t :: trees) n).map Prod.snd =
        (t.children.map fun c => (n, c)) ++ (childPairs trees (n + 1)).map Prod.snd := by
      simp [childPairs, zipIdx_cons]
    rw [hcons, treesOf_append, hself, ih]
    rcases lt_trichotomy n j with hlt | rfl | hgt
    · obtain ⟨k, rfl⟩ := Nat.exists_eq_add_of_lt hlt
      have hk : n + k + 1 - n = k + 1 := by omega
      have hk' : n + k + 1 - (n + 1) = k := by omega
      rw [if_neg hlt.ne, if_pos (Nat.succ_le_of_lt hlt), if_pos hlt.le, hk, hk']
      rfl
    · simp
    · rw [if_neg hgt.ne', if_neg (by omega), if_neg (by omega)]
      rfl

lemma treesOf_paired {pairs : List (ℕ × ℕ × RangeTree κ)} (h : ∀ p ∈ pairs, p.2.2.start = p.1)
    (i k : ℕ) : treesOf i (OrdMap.paired pairs k) =
      (treesOf i (pairs.map Prod.snd)).filter fun t => t.start = k := by
  simp only [treesOf, OrdMap.paired, filter_map, filter_filter, map_map]
  congr 1
  refine filter_congr fun p hp => ?_
  simp [h p hp, Bool.and_comm]

variable {parents : List (RangeTree κ)}

lemma represents_intoStartEvents {lo hi : ℕ}
    (hwf : ∀ ts ∈ parents.map children, ForestWF lo hi ts) :
    Represents (intoStartEvents parents) (parents.map children) := by
  have hevents : intoStartEvents parents = (OrdMap.group (childPairs parents 0)).keys.map fun k =>
        ⟨k, OrdMap.paired (childPairs parents 0) k⟩ := by
    rw [intoStartEvents, OrdMap.group_entries, map_map]
    rfl
  have hoff : ∀ k, ∀ t ∈ OrdMap.paired (childPairs parents 0) k, t.2.start = k := by
    intro k t ht
    obtain ⟨p, hp, rfl⟩ := List.mem_map.mp ht
    obtain ⟨hmem, hk⟩ := List.mem_filter.mp hp
    rw [childPairs_start hmem]
    simpa using hk
  rw [hevents]
  refine ⟨?_, fun event hev => ?_, fun event hev => ?_, fun i => ?_⟩
  · rw [pairwise_map]
    exact OrdMap.pairwise_keys _
  · obtain ⟨k, hk, rfl⟩ := List.mem_map.mp hev
    obtain ⟨p, hp, rfl⟩ := List.mem_map.mp (OrdMap.mem_keys_group.mp hk)
    refine ne_nil_of_mem (mem_map_of_mem (List.mem_filter.mpr ⟨hp, ?_⟩))
    simp
  · obtain ⟨k, _, rfl⟩ := List.mem_map.mp hev
    exact hoff k
  · -- the trees of a parent are sorted by their starts already
    have hall := treesOf_childPairs i parents 0
    rw [if_pos (Nat.zero_le i), Nat.sub_zero] at hall
    have hF := forestWF_getD hwf i
    rw [← hall] at hF ⊢
    rw [forestOf, flatMap_map]
    refine (flatMap_congr fun k _ => treesOf_paired (fun p => childPairs_start) i k).trans
      (flatMap_filter_eq start (OrdMap.pairwise_keys _) hF.pairwise_start fun t ht => ?_)
    · obtain ⟨p, hp, hpt⟩ := List.mem_map.mp (mem_treesOf.mp ht)
      refine OrdMap.mem_keys_group.mpr (List.mem_map.mpr ⟨p, hp, ?_⟩)
      rw [← childPairs_start hp, hpt]

/-! ### One forest per parent -/

variable [AddCommGroup κ]

def Row.groupAt (i : ℕ) (row : Row κ) : Option (RangeTree κ) :=
  group row.start row.stop (row.lefts.getD i [])

def Ascending (rows : List (Row κ)) : Prop := rows.Pairwise fun r r' => r.start < r'.start

variable {rows : List (Row κ)}

omit [AddCommGroup κ] in
lemma start_of_mem_filterMap {f : Row κ → Option (RangeTree κ)}
    (hf : ∀ row t, f row = some t → t.start = row.start)
    (hrows : ∀ row ∈ rows, n < row.start) {t : RangeTree κ} (ht : t ∈ rows.filterMap f) :
    n < t.start := by
  obtain ⟨row, hrow, hft⟩ := List.mem_filterMap.mp ht
  rw [hf row t hft]
  exact hrows row hrow

omit [AddCommGroup κ] in
/-- Trees of ascending rows from two sources that exclude each other are merged row by row. -/
lemma mergeChildrenLists_filterMap {f g : Row κ → Option (RangeTree κ)}
    (hf : ∀ row t, f row = some t → t.start = row.start)
    (hg : ∀ row t, g row = some t → t.start = row.start)
    (hone : ∀ row, f row = none ∨ g row = none) (hrows : Ascending rows) :
    mergeChildrenLists (rows.filterMap f) (rows.filterMap g) =
      rows.filterMap fun row => (f row).or (g row) := by
  unfold mergeChildrenLists
  induction rows with
  | nil => simp
  | cons row rows ih =>
    obtain ⟨hhead, htail⟩ := List.pairwise_cons.mp hrows
    have hih := ih htail
    simp only [filterMap_cons]
    cases hfr : f row with
    | some a =>
      have hgr : g row = none := (hone row).resolve_left (by simp [hfr])
      simp only [hgr, Option.some_or, ← hih]
      cases hG : rows.filterMap g with
      | nil => simp
      | cons b bs =>
        have hb : row.start < b.start := start_of_mem_filterMap hg hhead (by simp [hG])
        exact cons_merge_cons_pos _ _ _ (by simpa [hf row a hfr] using hb)
    | none =>
      cases hgr : g row with
      | none => simpa only [Option.none_or] using hih
      | some b =>
        simp only [Option.none_or, ← hih]
        cases hF : rows.filterMap f with
        | nil => simp
        | cons a as =>
          have ha : row.start < a.start := start_of_mem_filterMap hf hhead (by simp [hF])
          exact cons_merge_cons_neg _ _ _ (by simpa [hg row b hgr] using ha.le)

/-- The lists of a parent together are its trees of the rows. -/
lemma mergeChildrenLists_groupAt (i : ℕ) (hrows : Ascending rows) :
    mergeChildrenLists (rows.filterMap (Row.flatAt i)) (rows.filterMap (Row.wrappedAt i)) =
      rows.filterMap (Row.groupAt i) := by
  refine mergeChildrenLists_filterMap (fun row t h => (flatGroup_eq_some h).2.1)
    (fun row t h => ?_) (fun row => ?_) hrows
  · rw [(wrappedGroup_eq_some h).2, start_node]
  · change flatGroup row.start row.stop (row.lefts.getD i []) = none ∨
      wrappedGroup row.start row.stop (row.lefts.getD i []) = none
    rw [wrappedGroup]
    cases flatGroup row.start row.stop (row.lefts.getD i []) <;> simp

/-! ### Merging the forests -/

/-- The forests of `n` parents that are left when the given rows are. -/
def columns (n : ℕ) (rows : List (Row κ)) : List (List (RangeTree κ)) :=
  (List.range n).map fun i => rows.filterMap (Row.groupAt i)

variable {row : Row κ}

lemma Row.groups_eq (h : row.lefts.length = n) :
    row.groups = (List.range n).filterMap fun i => row.groupAt i := by
  have hlefts : row.lefts = (List.range n).map fun i => row.lefts.getD i [] := by
    subst h
    refine ext_getElem (by simp) fun i hi _ => ?_
    simp [getD_eq_getElem?_getD, hi]
  rw [Row.groups]
  conv_lhs => rw [hlefts]
  rw [filterMap_map]
  rfl

lemma Row.groupAt_start {i : ℕ} {t : RangeTree κ} (h : row.groupAt i = some t) :
    t.start = row.start := (group_range h).1

/-- Nothing is taken from the forests in front of all rows. -/
lemma columns_before {n event : ℕ} (h : ∀ row ∈ rows, event < row.start) :
    (columns n rows).filterMap (peekAt event) = [] ∧
      (columns n rows).map (popAt event) = columns n rows := by
  have hpeek : ∀ i, peekAt event (rows.filterMap (Row.groupAt i)) = none := by
    intro i
    unfold peekAt
    cases hF : rows.filterMap (Row.groupAt i) with
    | nil => rfl
    | cons t ts =>
      have ht : event < t.start :=
        start_of_mem_filterMap (fun row t => Row.groupAt_start (i := i)) h (by simp [hF])
      simp [ht.ne']
  constructor
  · rw [columns, filterMap_map]
    exact List.filterMap_eq_nil_iff.mpr fun i _ => hpeek i
  · rw [columns]
    simp [popAt, hpeek]

/-- At the start of the first row its trees are taken. -/
lemma columns_cons (hlen : row.lefts.length = n) (h : ∀ row' ∈ rows, row.start < row'.start) :
    (columns n (row :: rows)).filterMap (peekAt row.start) = row.groups ∧
      (columns n (row :: rows)).map (popAt row.start) = columns n rows := by
  have hcol : ∀ i, peekAt row.start ((row :: rows).filterMap (Row.groupAt i)) = row.groupAt i ∧
      popAt row.start ((row :: rows).filterMap (Row.groupAt i)) =
        rows.filterMap (Row.groupAt i) := by
    intro i
    rw [popAt, filterMap_cons]
    cases hg : row.groupAt i with
    | some t => simp [peekAt, Row.groupAt_start hg]
    | none =>
      cases hF : rows.filterMap (Row.groupAt i) with
      | nil => simp [peekAt]
      | cons u us =>
        have hu : row.start < u.start :=
          start_of_mem_filterMap (fun row t => Row.groupAt_start (i := i)) h (by simp [hF])
        simp [peekAt, hu.ne']
  constructor
  · rw [columns, filterMap_map, Row.groups_eq hlen]
    exact filterMap_congr fun i _ => (hcol i).1
  · rw [columns, map_map]
    exact map_congr_left fun i _ => (hcol i).2

variable {merge : List (RangeTree κ) → Option (RangeTree κ)}

/-- The last loop merges the trees of each row, however many events there are besides the starts
of the rows. -/
lemma mergeForests_columns
    (hmerge : merge [] = none) {events : List ℕ} (hevents : events.Pairwise (· < ·))
    (hrows : Ascending rows) (hlen : ∀ row ∈ rows, row.lefts.length = n)
    (hmem : ∀ row ∈ rows, row.start ∈ events) :
    mergeForests merge events (columns n rows) = rows.filterMap fun row => merge row.groups := by
  induction events generalizing rows with
  | nil =>
    have : rows = [] := List.eq_nil_iff_forall_not_mem.mpr fun row h => nomatch hmem row h
    simp [this, mergeForests]
  | cons event events ih =>
    obtain ⟨hhead, htail⟩ := List.pairwise_cons.mp hevents
    have hskip : (∀ row ∈ rows, event < row.start) →
        mergeForests merge (event :: events) (columns n rows) =
          rows.filterMap fun row => merge row.groups := by
      intro hlt
      obtain ⟨hpeek, hpop⟩ := columns_before hlt
      rw [mergeForests, hpeek, hpop, hmerge]
      exact ih htail hrows hlen fun row hrow =>
        (List.mem_cons.mp (hmem row hrow)).resolve_left (hlt row hrow).ne'
    cases rows with
    | nil => exact hskip (by simp)
    | cons row rows =>
      obtain ⟨hrow, hrest⟩ := List.pairwise_cons.mp hrows
      rcases List.mem_cons.mp (hmem row mem_cons_self) with hstart | hstart
      · obtain ⟨hpeek, hpop⟩ := columns_cons (hlen row mem_cons_self) hrow
        have hih := ih htail hrest (fun r hr => hlen r (mem_cons_of_mem _ hr))
          fun r hr => (List.mem_cons.mp (hmem r (mem_cons_of_mem _ hr))).resolve_left
            (hstart ▸ (hrow r hr).ne')
        rw [mergeForests, ← hstart, hpeek, hpop, hih, filterMap_cons]
        cases merge row.groups <;> rfl
      · have hlt := hhead _ hstart
        exact hskip (List.forall_mem_cons.mpr ⟨hlt, fun r hr => hlt.trans (hrow r hr)⟩)

/-! ### The whole -/

omit [AddCommGroup κ] in
lemma Sweep.length_lefts {forests : List (List (RangeTree κ))}
    (h : Sweep forests rows) : ∀ row ∈ rows, row.lefts.length = forests.length := by
  induction h with
  | done _ => simp
  | step _ _ ih => simpa using ih

/-- The children of several trees are merged row by row. -/
theorem mergeRangeTreeChildren_eq (ord : IterOrder (ℕ × List (RangeTree κ)))
    (hmerge : merge [] = none) {lo hi : ℕ} (hwf : ∀ ts ∈ parents.map children, ForestWF lo hi ts)
    (hsweep : Sweep (parents.map children) rows) :
    mergeRangeTreeChildren ord merge parents = rows.filterMap fun row => merge row.groups := by
  obtain ⟨hrowWF, hpair⟩ := hsweep.rowWF hwf
  have hasc : Ascending rows := hpair.imp_of_mem fun hr _ h => (hrowWF _ hr).lt.trans_le h
  have hready : Ready (⟨⟨none, intoStartEvents parents⟩, none, [], fun _ => [], fun _ => []⟩ :
      MergeState κ) (intoStartEvents parents) := .initial rfl rfl rfl
  obtain ⟨hnested, hcols⟩ := eventLoop_sweep ord hsweep hwf hready (represents_intoStartEvents hwf)
    (Nat.lt_succ_self _ : _ < 2 * (intoStartEvents parents).length + 1)
  rw [mergeRangeTreeChildren]
  generalize eventLoop ord (2 * (intoStartEvents parents).length + 1) _ = st at hnested hcols ⊢
  have hforests : ((List.range parents.length).map fun i => mergeChildrenLists
      ((closeOpen ord st).flatChildren i) ((closeOpen ord st).wrappedChildren i)) =
      columns parents.length rows := by
    refine map_congr_left fun i _ => ?_
    rw [closeOpen_flat, closeOpen_wrapped ord hnested, (hcols i).1, (hcols i).2]
    exact mergeChildrenLists_groupAt i hasc
  rw [hforests]
  have hlen : ∀ row ∈ rows, row.lefts.length = parents.length := fun row hrow => by
    rw [hsweep.length_lefts row hrow, length_map]
  refine mergeForests_columns hmerge (OrdSet.sorted _) hasc hlen fun row hrow => ?_
  -- some parent has a tree in the row
  obtain ⟨t, ht⟩ := exists_mem_of_ne_nil _ (hrowWF row hrow).nonempty
  rw [Row.groups_eq (hlen row hrow)] at ht
  obtain ⟨i, hi, hg⟩ := List.mem_filterMap.mp ht
  refine OrdSet.mem_ofList.mpr (List.mem_flatMap.mpr ⟨_, mem_map_of_mem hi, ?_⟩)
  refine List.mem_flatMap.mpr ⟨t, List.mem_filterMap.mpr ⟨row, hrow, hg⟩, ?_⟩
  rw [Row.groupAt_start hg]
  exact mem_cons_self

end Deno
