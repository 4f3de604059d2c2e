import Deno.Coverage.Forest
import Mathlib.Algebra.Order.BigOperators.Group.List
import Mathlib.Algebra.Order.Ring.Nat
import Mathlib.Data.Set.Finite.Lemmas
import Mathlib.Data.Set.Finite.List

/-!
# Sweeping forests into common ranges

What merging does to the children of several trees, seen from a distance. The first range starts
with the first tree of all forests and is as wide as the widest tree that starts there. Every
forest is cut at its end; what lies in front is one row, with an entry per forest, and the rest is
swept in the same way. The rows follow one another, each is shallower than the forests were, and
together they have the value of the forests. Only the order of the entries depends on the order
of the forests.
-/

namespace Deno

open RangeTree List

variable {κ : Type}

/-- A range with what each forest has in it. -/
structure Row (κ : Type) where
  start : ℕ
  stop : ℕ
  lefts : List (List (RangeTree κ))

/-- The range that is opened first: it starts with the first tree, and ends with the last one
of those that start there. -/
structure Opens (forests : List (List (RangeTree κ))) (s e : ℕ) : Prop where
  exists_tree : ∃ ts ∈ forests, ∃ t ∈ ts, t.start = s ∧ t.stop = e
  start_le : ∀ ts ∈ forests, ∀ t ∈ ts, s ≤ t.start
  stop_le : ∀ ts ∈ forests, ∀ t ∈ ts, t.start = s → t.stop ≤ e

/-- The rows of the ranges that are opened one after the other. -/
inductive Sweep : List (List (RangeTree κ)) → List (Row κ) → Prop where
  | done {forests : List (List (RangeTree κ))} (h : ∀ ts ∈ forests, ts = []) : Sweep forests []
  | step {forests : List (List (RangeTree κ))} {s e : ℕ} {rows : List (Row κ)}
      (hopen : Opens forests s e) (hrest : Sweep (forests.map (right e)) rows) :
      Sweep forests (⟨s, e, forests.map (left e)⟩ :: rows)

/-! ### One tree per forest and row -/

def flatGroup (s e : ℕ) : List (RangeTree κ) → Option (RangeTree κ)
  | [t] => if t.start = s ∧ t.stop = e then some t else none
  | _ => none

variable {ts : List (RangeTree κ)} {s e : ℕ} {t : RangeTree κ}

lemma flatGroup_eq_some (h : flatGroup s e ts = some t) : ts = [t] ∧ t.start = s ∧ t.stop = e := by
  unfold flatGroup at h
  split at h
  · split_ifs at h with hr
    cases h
    exact ⟨rfl, hr⟩
  · cases h

section

variable [AddCommGroup κ]

/-- What else lies in the range, wrapped into one tree. -/
def wrappedGroup (s e : ℕ) (ts : List (RangeTree κ)) : Option (RangeTree κ) :=
  if ts.isEmpty ∨ (flatGroup s e ts).isSome then none else some (.node s e 0 ts)

lemma wrappedGroup_eq_some (h : wrappedGroup s e ts = some t) : ts ≠ [] ∧ t = .node s e 0 ts := by
  unfold wrappedGroup at h
  split_ifs at h with hempty
  cases h
  exact ⟨fun hnil => hempty (Or.inl (by simp [hnil])), rfl⟩

def group (s e : ℕ) (ts : List (RangeTree κ)) : Option (RangeTree κ) :=
  (flatGroup s e ts).or (wrappedGroup s e ts)

def Row.groups (row : Row κ) : List (RangeTree κ) := row.lefts.filterMap (group row.start row.stop)

variable {g : RangeTree κ}

/-- A forest yields the tree that has the range to itself, or all of it is wrapped. -/
lemma group_cases (h : group s e ts = some g) :
    (ts = [g] ∧ g.start = s ∧ g.stop = e) ∨ g = .node s e 0 ts := by
  unfold group at h
  cases hf : flatGroup s e ts with
  | some t =>
    rw [hf] at h
    cases h
    exact Or.inl (flatGroup_eq_some hf)
  | none =>
    rw [hf] at h
    exact Or.inr (wrappedGroup_eq_some h).2

lemma group_isSome (h : ts ≠ []) : (group s e ts).isSome = true := by
  unfold group wrappedGroup
  cases hf : flatGroup s e ts with
  | some t => rfl
  | none => simp [h]

lemma group_range (h : group s e ts = some g) : g.start = s ∧ g.stop = e := by
  rcases group_cases h with ⟨_, hr⟩ | rfl
  · exact hr
  · exact ⟨rfl, rfl⟩

section

variable {s e : ℕ} {ts : List (RangeTree κ)} {g : RangeTree κ} (hts : ForestWF s e ts)
  (h : group s e ts = some g)

include hts h

lemma group_wf (hse : s < e) : g.WF := by
  rcases group_cases h with ⟨rfl, _⟩ | rfl
  · exact (hts.mem mem_cons_self).2.1
  · exact wf_node.mpr ⟨hse, hts⟩

lemma valueAt_group (x : ℕ) : g.valueAt x = forestValue x ts := by
  rcases group_cases h with ⟨rfl, _⟩ | rfl
  · simp
  · rw [valueAt_node, zero_add]
    split_ifs with hx
    · rfl
    · exact (forestValue_of_outside hts hx).symm

end

lemma forestDepth_group (h : group s e ts = some g) : forestDepth g.children ≤ forestDepth ts := by
  rcases group_cases h with ⟨rfl, _⟩ | rfl
  · rw [forestDepth_cons, depth_eq]
    omega
  · rfl

end

/-! ### The first range -/

namespace Opens

variable {forests : List (List (RangeTree κ))} {s e lo hi : ℕ} (h : Opens forests s e)

include h

variable (hwf : ∀ ts ∈ forests, ForestWF lo hi ts)

include hwf

lemma bounds : lo ≤ s ∧ s < e ∧ e ≤ hi := by
  obtain ⟨ts, hts, t, ht, rfl, rfl⟩ := h.exists_tree
  obtain ⟨h1, h2, h3⟩ := (hwf ts hts).mem ht
  exact ⟨h1, h2.lt, h3⟩

lemma cut (hts : ts ∈ forests) : ForestWF s e (left e ts) ∧ ForestWF e hi (right e ts) := by
  obtain ⟨_, hse, hhi⟩ := h.bounds hwf
  have hs : ForestWF s hi ts := by
    refine forestWF_iff.mpr ⟨fun t ht => ?_, (hwf ts hts).pairwise⟩
    exact ⟨h.start_le ts hts t ht, ((hwf ts hts).mem ht).2⟩
  exact cut_wf e ts hs hse.le hhi

lemma forestWF_left : ∀ ts ∈ forests.map (left e), ForestWF s e ts := by
  intro ts hts
  obtain ⟨us, hus, rfl⟩ := List.mem_map.mp hts
  exact (h.cut hwf hus).1

lemma forestWF_right : ∀ ts ∈ forests.map (right e), ForestWF e hi ts := by
  intro ts hts
  obtain ⟨us, hus, rfl⟩ := List.mem_map.mp hts
  exact (h.cut hwf hus).2

lemma left_eq_singleton (hts : ts ∈ forests) (ht : t ∈ ts)
    (hs : t.start = s) (he : t.stop = e) : left e ts = [t] ∧ (right e ts).length < ts.length := by
  have hts' := hwf ts hts
  cases ts with
  | nil => cases ht
  | cons u us =>
    obtain ⟨_, hu, _, hus⟩ := forestWF_cons.mp hts'
    rcases List.mem_cons.mp ht with rfl | ht
    · obtain ⟨hl, hr⟩ := cut_of_le hus he.ge
      rw [left_cons, right_cons, if_pos he.le, if_pos he.le, hl, hr]
      exact ⟨rfl, Nat.lt_succ_self _⟩
    · -- a tree in front of it would start earlier
      have hnext := (List.pairwise_cons.mp hts'.pairwise).1 t ht
      have hle := h.start_le _ hts u mem_cons_self
      have hlt := hu.lt
      omega

end Opens

/-! ### Sweeps exist -/

lemma length_right_le (v : ℕ) (ts : List (RangeTree κ)) : (right v ts).length ≤ ts.length := by
  induction ts with
  | nil => simp
  | cons t ts ih =>
    rw [right_cons]
    split_ifs <;> simp only [length_cons] <;> omega

variable {forests : List (List (RangeTree κ))}

lemma exists_opens (h : ∃ ts ∈ forests, ts ≠ []) : ∃ s e, Opens forests s e := by
  obtain ⟨ts, hts, hne⟩ := h
  obtain ⟨t, ht⟩ := exists_mem_of_ne_nil ts hne
  obtain ⟨a, ha, hmin⟩ := Set.exists_min_image {t | t ∈ forests.flatten} RangeTree.start
    (finite_toSet _) ⟨t, mem_flatten_of_mem hts ht⟩
  obtain ⟨b, ⟨hb, hbs⟩, hmax⟩ := Set.exists_max_image
    {t | t ∈ forests.flatten ∧ t.start = a.start} RangeTree.stop
    ((finite_toSet forests.flatten).subset fun t ht => ht.1) ⟨a, ha, rfl⟩
  refine ⟨a.start, b.stop, ?_, ?_, ?_⟩
  · obtain ⟨us, hus, hbu⟩ := List.mem_flatten.mp hb
    exact ⟨us, hus, b, hbu, hbs, rfl⟩
  · intro us hus u hu
    exact hmin u (mem_flatten_of_mem hus hu)
  · intro us hus u hu hs
    exact hmax u ⟨mem_flatten_of_mem hus hu, hs⟩

/-- Well-formed forests can be swept: every range takes at least one tree away. -/
theorem exists_sweep {lo hi : ℕ}
    (hwf : ∀ ts ∈ forests, ForestWF lo hi ts) : ∃ rows, Sweep forests rows := by
  induction hn : (forests.map List.length).sum using Nat.strong_induction_on
    generalizing forests lo with
  | _ n ih =>
    by_cases hempty : ∀ ts ∈ forests, ts = []
    · exact ⟨[], .done hempty⟩
    · simp only [not_forall] at hempty
      obtain ⟨ts, hts, hne⟩ := hempty
      obtain ⟨s, e, hopen⟩ := exists_opens ⟨ts, hts, hne⟩
      have hdec : ((forests.map (right e)).map List.length).sum < n := by
        rw [← hn, map_map]
        refine sum_lt_sum _ _ (fun us _ => length_right_le e us) ?_
        obtain ⟨us, hus, t, ht, h1, h2⟩ := hopen.exists_tree
        exact ⟨us, hus, (hopen.left_eq_singleton hwf hus ht h1 h2).2⟩
      obtain ⟨rows, hrows⟩ := ih _ hdec (hopen.forestWF_right hwf) rfl
      exact ⟨_, .step hopen hrows⟩

/-! ### What the rows are -/

section

variable [AddCommGroup κ] {forests : List (List (RangeTree κ))} {rows : List (Row κ)}

def childDepths (ts : List (RangeTree κ)) : ℕ := (ts.map fun t => forestDepth t.children).sum

/-- A row between two offsets, with less depth than the forests it comes from. -/
structure RowWF (lo hi bound : ℕ) (row : Row κ) : Prop where
  lo_le : lo ≤ row.start
  lt : row.start < row.stop
  le_hi : row.stop ≤ hi
  lefts : ∀ ts ∈ row.lefts, ForestWF row.start row.stop ts
  nonempty : row.groups ≠ []
  depth : childDepths row.groups < bound

lemma childDepths_filterMap (s e : ℕ) (lefts : List (List (RangeTree κ))) :
    childDepths (lefts.filterMap (group s e)) =
      (lefts.map fun ts => (group s e ts).elim 0 fun g => forestDepth g.children).sum := by
  induction lefts with
  | nil => rfl
  | cons ts lefts ih =>
    unfold childDepths at ih ⊢
    rw [filterMap_cons, map_cons, sum_cons, ← ih]
    cases group s e ts with
    | none | some g => simp

lemma Opens.rowWF {s e lo hi : ℕ} (h : Opens forests s e)
    (hwf : ∀ ts ∈ forests, ForestWF lo hi ts) :
    RowWF lo hi (forests.map forestDepth).sum (⟨s, e, forests.map (left e)⟩ : Row κ) := by
  obtain ⟨hlo, hse, hhi⟩ := h.bounds hwf
  obtain ⟨us, hus, t, ht, h1, h2⟩ := h.exists_tree
  have hleft := (h.left_eq_singleton hwf hus ht h1 h2).1
  have hgroup : group s e (left e us) = some t := by
    rw [hleft, group, flatGroup, if_pos ⟨h1, h2⟩, Option.some_or]
  refine ⟨hlo, hse, hhi, h.forestWF_left hwf, ?_, ?_⟩
  · refine ne_nil_of_mem (a := t) ?_
    exact List.mem_filterMap.mpr ⟨left e us, mem_map_of_mem hus, hgroup⟩
  · rw [Row.groups, childDepths_filterMap, map_map]
    refine sum_lt_sum _ _ (fun ts _ => ?_) ⟨us, hus, ?_⟩
    · rw [Function.comp_apply]
      cases hg : group s e (left e ts) with
      | none => exact Nat.zero_le _
      | some g => exact (forestDepth_group hg).trans (forestDepth_cut e ts).1
    · rw [Function.comp_apply, hgroup, Option.elim_some]
      have hdepth := depth_le_forestDepth ht
      rw [depth_eq] at hdepth
      omega

namespace Sweep

/-- The rows are well formed and follow one another. -/
theorem rowWF {lo hi : ℕ} (h : Sweep forests rows) (hwf : ∀ ts ∈ forests, ForestWF lo hi ts) :
    (∀ row ∈ rows, RowWF lo hi (forests.map forestDepth).sum row) ∧
      rows.Pairwise fun r r' => r.stop ≤ r'.start := by
  induction h generalizing lo with
  | done _ => simp
  | @step forests s e rows hopen _ ih =>
    obtain ⟨hrows, hpair⟩ := ih (hopen.forestWF_right hwf)
    obtain ⟨hlo, hse, _⟩ := hopen.bounds hwf
    have hdepth : ((forests.map (right e)).map forestDepth).sum ≤
        (forests.map forestDepth).sum := by
      rw [map_map]
      exact sum_le_sum fun ts _ => (forestDepth_cut e ts).2
    refine ⟨List.forall_mem_cons.mpr ⟨hopen.rowWF hwf, fun row hrow => ?_⟩,
      List.pairwise_cons.mpr ⟨fun row hrow => (hrows row hrow).lo_le, hpair⟩⟩
    have h := hrows row hrow
    exact { h with
      lo_le := (hlo.trans hse.le).trans h.lo_le
      depth := h.depth.trans_le hdepth }

/-- The rows have the value of the forests. -/
theorem value (h : Sweep forests rows) (x : ℕ) :
    (rows.map fun row => (row.lefts.map (forestValue x)).sum).sum =
      (forests.map (forestValue x)).sum := by
  induction h with
  | @done forests hempty =>
    have : forests.map (forestValue x) = forests.map fun _ => (0 : κ) := by
      refine map_congr_left fun ts hts => ?_
      rw [hempty ts hts, forestValue_nil]
    rw [this]
    simp
  | @step forests s e rows _ _ ih =>
    rw [map_cons, sum_cons, ih, map_map, map_map, ← sum_map_add]
    simp [forestValue_left_add_right]

omit [AddCommGroup κ] in
/-- Sweeping the forests in another order only reorders the entries of each row. -/
theorem perm {forests' : List (List (RangeTree κ))} (h : Sweep forests rows)
    (hperm : forests.Perm forests') :
    ∃ rows', Sweep forests' rows' ∧
      List.Forall₂ (fun r r' => r.start = r'.start ∧ r.stop = r'.stop ∧ r.lefts.Perm r'.lefts)
        rows rows' := by
  induction h generalizing forests' with
  | done hempty => exact ⟨[], .done fun ts hts => hempty ts (hperm.mem_iff.mpr hts), .nil⟩
  | @step forests s e rows hopen _ ih =>
    obtain ⟨rows', hsweep, hrows⟩ := ih (hperm.map (right e))
    have hopen' : Opens forests' s e := by
      obtain ⟨ts, hts, ht⟩ := hopen.exists_tree
      exact ⟨⟨ts, hperm.mem_iff.mp hts, ht⟩,
        fun us hus => hopen.start_le us (hperm.mem_iff.mpr hus),
        fun us hus => hopen.stop_le us (hperm.mem_iff.mpr hus)⟩
    exact ⟨_, .step hopen' hsweep, .cons ⟨rfl, rfl, hperm.map (left e)⟩ hrows⟩

end Sweep

end

end Deno
