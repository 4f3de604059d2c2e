import Deno.Coverage.Forest
import Mathlib.Algebra.Order.Group.Nat

/-!
# Trees and lists of ranges

A function comes with the list of its ranges. A well-formed list is the pre-order of a tree:
`from_sorted_ranges` finds the tree and `to_ranges` writes it down. The count of a list at an
offset is the value of the tree.
-/

namespace Deno

open RangeTree List

variable {κ : Type}

/-! ### Lists of ranges -/

/-- Each range of the list but the first is inside an earlier one or behind it. -/
def Follows (a b : CoverageRange κ) : Prop :=
  (a.startCharOffset ≤ b.startCharOffset ∧ b.endCharOffset ≤ a.endCharOffset) ∨
    a.endCharOffset ≤ b.startCharOffset

/-- Proper ranges in pre-order (by start, the wider one first), all of them in the first one and
any two nested or disjoint. -/
@[mk_iff]
structure RangesWF (ranges : List (CoverageRange κ)) : Prop where
  nonempty : ranges ≠ []
  proper : ∀ r ∈ ranges, r.startCharOffset < r.endCharOffset
  preorder : ranges.Pairwise fun a b => a.startCharOffset < b.startCharOffset ∨
    (a.startCharOffset = b.startCharOffset ∧ b.endCharOffset ≤ a.endCharOffset)
  inFirst : ∀ first ∈ ranges.head?, ∀ r ∈ ranges,
    first.startCharOffset ≤ r.startCharOffset ∧ r.endCharOffset ≤ first.endCharOffset
  laminar : ranges.Pairwise fun a b =>
    (a.startCharOffset ≤ b.startCharOffset ∧ b.endCharOffset ≤ a.endCharOffset) ∨
    (b.startCharOffset ≤ a.startCharOffset ∧ a.endCharOffset ≤ b.endCharOffset) ∨
    a.endCharOffset ≤ b.startCharOffset ∨ b.endCharOffset ≤ a.startCharOffset

instance (ranges : List (CoverageRange κ)) : Decidable (RangesWF ranges) :=
  decidable_of_iff' _ (rangesWF_iff ranges)

def HasRoot (ranges : List (CoverageRange κ)) (s e : ℕ) : Prop :=
  ranges.head?.map (fun r => (r.startCharOffset, r.endCharOffset)) = some (s, e)

instance (ranges : List (CoverageRange κ)) (s e : ℕ) : Decidable (HasRoot ranges s e) :=
  inferInstanceAs (Decidable (_ = _))

/-- The count of the last range around an offset. -/
def countAt [Zero κ] (ranges : List (CoverageRange κ)) (x : ℕ) : κ :=
  ((ranges.filter fun r => r.startCharOffset ≤ x ∧ x < r.endCharOffset).getLast?.map
    (·.count)).getD 0

variable {ranges : List (CoverageRange κ)}

lemma RangesWF.follows (h : RangesWF ranges) : ranges.Pairwise Follows := by
  refine (h.preorder.and h.laminar).imp_of_mem fun {a b} ha hb hab => ?_
  unfold Follows
  omega

/-- Ranges that lie between two offsets or behind both of them. -/
structure RangesFit (lo hi : ℕ) (ranges : List (CoverageRange κ)) : Prop where
  follows : ranges.Pairwise Follows
  proper : ∀ r ∈ ranges, r.startCharOffset < r.endCharOffset
  lo_le : ∀ r ∈ ranges, lo ≤ r.startCharOffset
  hi : ∀ r ∈ ranges, r.endCharOffset ≤ hi ∨ hi ≤ r.startCharOffset

lemma RangesFit.tail {lo hi : ℕ} {r : CoverageRange κ}
    (h : RangesFit lo hi (r :: ranges)) : RangesFit r.startCharOffset r.endCharOffset ranges := by
  obtain ⟨hhead, htail⟩ := List.pairwise_cons.mp h.follows
  have hr := h.proper r mem_cons_self
  refine ⟨htail, fun b hb => h.proper b (mem_cons_of_mem _ hb), fun b hb => ?_, fun b hb => ?_⟩
  · have := hhead b hb
    unfold Follows at this
    omega
  · have := hhead b hb
    unfold Follows at this
    omega

/-! ### Counts -/

def countFrom (x : ℕ) (c : κ) (ranges : List (CoverageRange κ)) : κ :=
  ranges.foldl (fun c r => if r.startCharOffset ≤ x ∧ x < r.endCharOffset then r.count else c) c

lemma countAt_eq [Zero κ] (ranges : List (CoverageRange κ)) (x : ℕ) :
    countAt ranges x = countFrom x 0 ranges := by
  have hfold : ∀ c : κ, ((ranges.filter fun r =>
      r.startCharOffset ≤ x ∧ x < r.endCharOffset).getLast?.map (·.count)).getD c =
        countFrom x c ranges := by
    induction ranges with
    | nil => intro c; rfl
    | cons r ranges ih =>
      intro c
      rw [countFrom, foldl_cons, ← countFrom, ← ih, filter_cons]
      by_cases hr : r.startCharOffset ≤ x ∧ x < r.endCharOffset
      · simp only [hr, and_self, decide_true, if_true, getLast?_cons, Option.map_some,
          Option.getD_some]
        cases (ranges.filter fun r =>
          r.startCharOffset ≤ x ∧ x < r.endCharOffset).getLast? <;> rfl
      · simp [hr]
  exact hfold 0

lemma countFrom_append (x : ℕ) (c : κ) (rs rs' : List (CoverageRange κ)) :
    countFrom x c (rs ++ rs') = countFrom x (countFrom x c rs) rs' := foldl_append

lemma countFrom_of_outside {x : ℕ} (c : κ)
    (h : ∀ r ∈ ranges, ¬ (r.startCharOffset ≤ x ∧ x < r.endCharOffset)) :
    countFrom x c ranges = c := by
  induction ranges with
  | nil => rfl
  | cons r ranges ih =>
    rw [countFrom, foldl_cons, if_neg (h r mem_cons_self)]
    exact ih fun r hr => h r (mem_cons_of_mem _ hr)

namespace RangeTree

/-! ### Sizes -/

lemma size_eq (t : RangeTree κ) : t.size = forestSize t.children + 1 := by
  cases t
  rfl

lemma forestSize_eq_sum (ts : List (RangeTree κ)) : forestSize ts = (ts.map size).sum := by
  induction ts with
  | nil => rfl
  | cons t ts ih => rw [forestSize, ih]; rfl

mutual

lemma depth_le_size : ∀ t : RangeTree κ, t.depth ≤ t.size
  | .node s e d cs => by
    exact Nat.succ_le_succ (forestDepth_le_forestSize cs)

lemma forestDepth_le_forestSize : ∀ ts : List (RangeTree κ), forestDepth ts ≤ forestSize ts
  | [] => by rw [forestDepth, forestSize]
  | t :: ts => by
    rw [forestDepth, forestSize]
    have := depth_le_size t
    have := forestDepth_le_forestSize ts
    omega

end

/-! ### Pre-order -/

variable [AddCommGroup κ]

mutual

/-- The ranges of a tree below a node with the given count. -/
def preorder (parentCount : κ) : RangeTree κ → List (CoverageRange κ)
  | .node s e d cs => ⟨s, e, parentCount + d⟩ :: forestPreorder (parentCount + d) cs

def forestPreorder (parentCount : κ) : List (RangeTree κ) → List (CoverageRange κ)
  | [] => []
  | t :: ts => preorder parentCount t ++ forestPreorder parentCount ts

end

variable (c : κ)

lemma preorder_eq (t : RangeTree κ) : preorder c t =
    ⟨t.start, t.stop, c + t.delta⟩ :: forestPreorder (c + t.delta) t.children := by
  cases t
  rfl

@[simp] lemma forestPreorder_nil : forestPreorder c ([] : List (RangeTree κ)) = [] := by
  rw [forestPreorder]

@[simp] lemma forestPreorder_cons (t : RangeTree κ) (ts : List (RangeTree κ)) :
    forestPreorder c (t :: ts) = preorder c t ++ forestPreorder c ts := by
  rw [forestPreorder]

lemma forestPreorder_eq_flatMap (ts : List (RangeTree κ)) :
    forestPreorder c ts = ts.flatMap (preorder c) := by
  induction ts with
  | nil => simp
  | cons t ts ih => simp [ih]

mutual

lemma length_preorder : ∀ (c : κ) (t : RangeTree κ), (preorder c t).length = t.size
  | c, .node s e d cs => by
    rw [preorder, size, length_cons, length_forestPreorder]

lemma length_forestPreorder : ∀ (c : κ) (ts : List (RangeTree κ)),
    (forestPreorder c ts).length = forestSize ts
  | c, [] => by
    rfl
  | c, t :: ts => by
    rw [forestPreorder, forestSize, length_append, length_preorder, length_forestPreorder]

end

/-! ### Writing a tree down -/

lemma toRangesLoop_eq (fuel : ℕ) (stack : List (RangeTree κ × κ))
    (h : (stack.map fun p => p.1.size).sum ≤ fuel) :
    toRangesLoop fuel stack = stack.flatMap fun p => preorder p.2 p.1 := by
  induction fuel generalizing stack with
  | zero =>
    cases stack with
    | nil => rfl
    | cons p stack =>
      rw [map_cons, sum_cons, size_eq] at h
      omega
  | succ fuel ih =>
    cases stack with
    | nil => rfl
    | cons p stack =>
      obtain ⟨cur, c⟩ := p
      have hsize : ((cur.children.map fun t => (t, c + cur.delta)) ++ stack).map
          (fun p => p.1.size) = cur.children.map size ++ stack.map fun p => p.1.size := by
        simp [Function.comp_def]
      rw [toRangesLoop, ih, flatMap_append, flatMap_map, flatMap_cons, preorder_eq,
        forestPreorder_eq_flatMap]
      · rfl
      · rw [map_cons, sum_cons, size_eq, forestSize_eq_sum] at h
        rw [hsize, sum_append]
        simp only at h
        omega

/-- `to_ranges` lists the ranges of a tree in pre-order. -/
theorem toRanges_eq (t : RangeTree κ) : toRanges t = preorder 0 t := by
  rw [toRanges, toRangesLoop_eq _ _ (by simp)]
  simp

/-! ### The pre-order of a well-formed tree -/

mutual

lemma preorder_mem : ∀ (c : κ) (t : RangeTree κ), t.WF → ∀ r ∈ preorder c t,
    t.start ≤ r.startCharOffset ∧ r.startCharOffset < r.endCharOffset ∧ r.endCharOffset ≤ t.stop
  | c, .node s e d cs, h, r, hr => by
    obtain ⟨hlt, hcs⟩ := wf_node.mp h
    rcases List.mem_cons.mp hr with rfl | hr
    · exact ⟨le_rfl, hlt, le_rfl⟩
    · exact forestPreorder_mem _ cs hcs r hr

lemma forestPreorder_mem : ∀ {lo hi : ℕ} (c : κ) (ts : List (RangeTree κ)), ForestWF lo hi ts →
    ∀ r ∈ forestPreorder c ts,
      lo ≤ r.startCharOffset ∧ r.startCharOffset < r.endCharOffset ∧ r.endCharOffset ≤ hi
  | lo, hi, c, [], _, r, hr => by simp at hr
  | lo, hi, c, t :: ts, h, r, hr => by
    obtain ⟨hlo, ht, hhi, hts⟩ := forestWF_cons.mp h
    have hlt := ht.lt
    rcases List.mem_append.mp hr with hr | hr
    · have := preorder_mem c t ht r hr
      omega
    · have := forestPreorder_mem c ts hts r hr
      omega

end

mutual

lemma preorder_follows : ∀ (c : κ) (t : RangeTree κ), t.WF → (preorder c t).Pairwise Follows
  | c, .node s e d cs, h => by
    obtain ⟨_, hcs⟩ := wf_node.mp h
    refine List.pairwise_cons.mpr ⟨fun r hr => Or.inl ?_, forestPreorder_follows _ cs hcs⟩
    have := forestPreorder_mem _ cs hcs r hr
    exact ⟨this.1, this.2.2⟩

lemma forestPreorder_follows : ∀ {lo hi : ℕ} (c : κ) (ts : List (RangeTree κ)),
    ForestWF lo hi ts → (forestPreorder c ts).Pairwise Follows
  | _, _, c, [], _ => by simp
  | lo, hi, c, t :: ts, h => by
    obtain ⟨_, ht, _, hts⟩ := forestWF_cons.mp h
    refine List.pairwise_append.mpr
      ⟨preorder_follows c t ht, forestPreorder_follows c ts hts, fun a ha b hb => Or.inr ?_⟩
    exact (preorder_mem c t ht a ha).2.2.trans (forestPreorder_mem c ts hts b hb).1

end

/-- The pre-order of a well-formed tree is a well-formed list of ranges. -/
theorem rangesWF_preorder (c : κ) {t : RangeTree κ} (h : t.WF) : RangesWF (preorder c t) := by
  have hmem := preorder_mem c t h
  have hfollows := preorder_follows c t h
  refine ⟨by rw [preorder_eq]; simp, fun r hr => (hmem r hr).2.1, ?_, ?_, ?_⟩
  · refine hfollows.imp_of_mem fun {a b} ha hb hab => ?_
    have ha' := (hmem a ha).2.1
    unfold Follows at hab
    omega
  · intro first hfirst r hr
    rw [preorder_eq, head?_cons, Option.mem_some_iff] at hfirst
    subst hfirst
    exact ⟨(hmem r hr).1, (hmem r hr).2.2⟩
  · refine hfollows.imp fun {a b} hab => ?_
    unfold Follows at hab
    omega

/-! ### Reading a tree -/

variable {ranges : List (CoverageRange κ)}

/-- Ranges that fit are the pre-order of a forest, up to those behind its end. -/
lemma exists_forest {lo hi : ℕ} (h : RangesFit lo hi ranges) (c : κ) :
    ∃ ts rest, ranges = forestPreorder c ts ++ rest ∧ ForestWF lo hi ts ∧
      ∀ r ∈ rest, hi ≤ r.startCharOffset := by
  induction hlen : ranges.length using Nat.strong_induction_on generalizing lo hi ranges c with
  | _ n ih =>
    subst hlen
    cases ranges with
    | nil => exact ⟨[], [], by simp, forestWF_nil, by simp⟩
    | cons r ranges =>
      by_cases hr : r.startCharOffset < hi
      · obtain ⟨cs, rest, rfl, hcs, hrest⟩ := ih _ (Nat.lt_succ_self _) h.tail r.count rfl
        have hsub : rest.Sublist (r :: (forestPreorder r.count cs ++ rest)) :=
          (sublist_append_right _ _).cons _
        have hfits : RangesFit r.endCharOffset hi rest :=
          ⟨h.follows.sublist hsub, fun b hb => h.proper b (hsub.subset hb), hrest,
            fun b hb => h.hi b (hsub.subset hb)⟩
        obtain ⟨ts, rest', rfl, hts, hrest'⟩ := ih _ (by simp +arith) hfits c rfl
        refine ⟨.node r.startCharOffset r.endCharOffset (r.count - c) cs :: ts, rest', ?_,
          forestWF_cons.mpr ⟨h.lo_le r mem_cons_self, ?_, ?_, hts⟩, hrest'⟩
        · simp [preorder]
        · exact wf_node.mpr ⟨h.proper r mem_cons_self, hcs⟩
        · exact (h.hi r mem_cons_self).resolve_right (by omega)
      · refine ⟨[], r :: ranges, by simp, forestWF_nil, forall_mem_cons.mpr ⟨by omega, fun b hb => ?_⟩⟩
        have := h.tail.lo_le b hb
        omega

lemma fromSortedRangesInner_behind {hi : ℕ} (h : ∀ r ∈ ranges.head?, hi ≤ r.startCharOffset)
    (fuel : ℕ) (c : κ) : fromSortedRangesInner fuel ranges hi c = (none, ranges) := by
  cases fuel with
  | zero => rfl
  | succ fuel =>
    cases ranges with
    | nil => rfl
    | cons r ranges => rw [fromSortedRangesInner, if_neg (Nat.not_lt.mpr (h r rfl))]

/-- The pre-order of a tree is read as the tree, up to what follows behind its end. Two calls for
every range are enough. -/
lemma reads_preorder (fuel : ℕ) : ∀ (hi : ℕ) (c : κ) (rest : List (CoverageRange κ)),
    (∀ t : RangeTree κ, 2 * t.size ≤ fuel + 1 → t.WF → t.start < hi →
      (∀ r ∈ rest.head?, t.stop ≤ r.startCharOffset) →
        fromSortedRangesInner fuel (preorder c t ++ rest) hi c = (some t, rest)) ∧
    ∀ (lo : ℕ) (ts : List (RangeTree κ)), 2 * forestSize ts ≤ fuel → ForestWF lo hi ts →
      (∀ r ∈ rest.head?, hi ≤ r.startCharOffset) →
        fromSortedRangesChildren fuel (forestPreorder c ts ++ rest) hi c = (ts, rest) := by
  induction fuel with
  | zero =>
    refine fun hi c rest => ⟨fun t h => ?_, fun lo ts h _ _ => ?_⟩
    · rw [size_eq] at h
      omega
    · cases ts with
      | nil => rfl
      | cons t ts =>
        rw [forestSize, size_eq] at h
        omega
  | succ fuel ih =>
    refine fun hi c rest => ⟨fun t h hwf hs hrest => ?_, fun lo ts h hwf hrest => ?_⟩
    · obtain ⟨s, e, d, cs⟩ := t
      rw [size] at h
      rw [start_node] at hs
      have hchildren := (ih e (c + d) rest).2 s cs (by omega) (wf_node.mp hwf).2 hrest
      rw [preorder, cons_append, fromSortedRangesInner]
      simp [hs, hchildren]
    · cases ts with
      | nil => rw [fromSortedRangesChildren, forestPreorder_nil, nil_append,
          fromSortedRangesInner_behind hrest]
      | cons t ts =>
        obtain ⟨-, ht, hhi, hts⟩ := forestWF_cons.mp hwf
        rw [forestSize] at h
        have hsize := t.size_eq
        -- behind the tree is the next one, or what is behind the parent
        have hnext : ∀ r ∈ (forestPreorder c ts ++ rest).head?, t.stop ≤ r.startCharOffset := by
          cases ts with
          | nil => exact fun r hr => hhi.trans (hrest r hr)
          | cons u us =>
            rw [forestPreorder, preorder_eq]
            rintro r ⟨rfl⟩
            exact (forestWF_cons.mp hts).1
        rw [fromSortedRangesChildren, forestPreorder, append_assoc,
          (ih hi c _).1 t (by omega) ht (ht.lt.trans_le hhi) hnext]
        simp [(ih hi c rest).2 t.stop ts (by omega) hts hrest]

lemma fromSortedRanges_preorder {t : RangeTree κ} (h : t.WF) (ht : t.stop ≤ usizeMax) :
    fromSortedRanges (preorder 0 t) = some t := by
  have hread := (reads_preorder (2 * (preorder (0 : κ) t).length + 1) usizeMax 0 []).1 t
    (by rw [length_preorder]; omega) h (h.lt.trans_le ht) (by simp)
  rw [append_nil] at hread
  rw [fromSortedRanges, hread]

/-- A well-formed list is the pre-order of the tree that `from_sorted_ranges` reads. -/
theorem fromSortedRanges_eq_some {s e : ℕ} (h : RangesWF ranges)
    (hroot : HasRoot ranges s e) (he : e ≤ usizeMax) :
    ∃ t, fromSortedRanges ranges = some t ∧ preorder 0 t = ranges ∧ t.WF ∧ t.start = s ∧
      t.stop = e := by
  cases ranges with
  | nil => exact absurd rfl h.nonempty
  | cons r ranges =>
    obtain ⟨rfl, rfl⟩ : r.startCharOffset = s ∧ r.endCharOffset = e := by
      simpa [HasRoot] using hroot
    have hin := h.inFirst r rfl
    have hfits : RangesFit r.startCharOffset r.endCharOffset (r :: ranges) :=
      ⟨h.follows, h.proper, fun b hb => (hin b hb).1, fun b hb => Or.inl (hin b hb).2⟩
    obtain ⟨cs, rest, hcs, hwf, hrest⟩ := exists_forest hfits.tail r.count
    -- nothing lies behind the first range
    have hnil : rest = [] := by
      refine List.eq_nil_iff_forall_not_mem.mpr fun b hb => ?_
      have hb' : b ∈ r :: ranges := mem_cons_of_mem _ (hcs ▸ mem_append_right _ hb)
      have h1 := hrest b hb
      have h2 := (hin b hb').2
      have h3 := h.proper b hb'
      omega
    have ht : (node r.startCharOffset r.endCharOffset r.count cs).WF :=
      wf_node.mpr ⟨h.proper r mem_cons_self, hwf⟩
    have hpre : preorder 0 (node r.startCharOffset r.endCharOffset r.count cs) = r :: ranges := by
      rw [preorder, zero_add, hcs, hnil, append_nil]
    exact ⟨_, hpre ▸ fromSortedRanges_preorder ht he, hpre, ht, rfl, rfl⟩

/-! ### Reading any list -/

/-- What is read is a part of the list in pre-order, up to a range that starts behind the end of the
parent. -/
lemma preorder_of_reads (fuel : ℕ) : ∀ (hi : ℕ) (c : κ) (ranges : List (CoverageRange κ)),
    (2 * ranges.length ≤ fuel + 1 →
      (fromSortedRangesInner fuel ranges hi c = (none, ranges) ∧
          ∀ r ∈ ranges.head?, hi ≤ r.startCharOffset) ∨
        ∃ t rest, fromSortedRangesInner fuel ranges hi c = (some t, rest) ∧
          ranges = preorder c t ++ rest) ∧
    (2 * ranges.length ≤ fuel → ∃ ts rest, fromSortedRangesChildren fuel ranges hi c = (ts, rest) ∧
      ranges = forestPreorder c ts ++ rest ∧ ∀ r ∈ rest.head?, hi ≤ r.startCharOffset) := by
  induction fuel with
  | zero =>
    intro hi c ranges
    cases ranges with
    | nil => exact ⟨fun _ => Or.inl ⟨rfl, by simp⟩, fun _ => ⟨[], [], rfl, by simp⟩⟩
    | cons r ranges => simp; omega
  | succ fuel ih =>
    intro hi c ranges
    refine ⟨fun h => ?_, fun h => ?_⟩
    · cases ranges with
      | nil => exact Or.inl ⟨rfl, by simp⟩
      | cons r ranges =>
        by_cases hr : r.startCharOffset < hi
        · rw [length_cons] at h
          obtain ⟨ts, rest, hread, hranges, -⟩ := (ih r.endCharOffset r.count ranges).2 (by omega)
          refine Or.inr ⟨_, rest, by rw [fromSortedRangesInner, if_pos hr, hread], ?_⟩
          rw [preorder, add_sub_cancel, cons_append, ← hranges]
        · exact Or.inl ⟨by rw [fromSortedRangesInner, if_neg hr], by simpa using hr⟩
    · rw [fromSortedRangesChildren]
      rcases (ih hi c ranges).1 h with ⟨hread, hbehind⟩ | ⟨t, rest, hread, hranges⟩
      · exact ⟨[], ranges, by rw [hread], by simpa using hbehind⟩
      · have hlen : 2 * rest.length ≤ fuel := by
          rw [hranges, preorder_eq, length_append, length_cons] at h
          omega
        obtain ⟨ts, rest', hread', hrest, hbehind⟩ := (ih hi c rest).2 hlen
        refine ⟨t :: ts, rest', by simp [hread, hread'], ?_, hbehind⟩
        rw [hranges, forestPreorder, append_assoc, ← hrest]

/-- A list whose ranges all start in the first one is read as a whole. -/
lemma toRanges_fromSortedRanges {r : CoverageRange κ}
    (hr : r.startCharOffset < usizeMax)
    (hranges : ∀ b ∈ ranges, b.startCharOffset < r.endCharOffset) :
    ∃ t, fromSortedRangesInner (2 * (r :: ranges).length + 1) (r :: ranges) usizeMax 0 =
      (some t, []) ∧ toRanges t = r :: ranges := by
  obtain ⟨ts, rest, hread, hpre, hbehind⟩ := (preorder_of_reads (2 * (r :: ranges).length)
    r.endCharOffset r.count ranges).2 (Nat.mul_le_mul_left 2 (Nat.le_succ _))
  have hnil : rest = [] := by
    cases rest with
    | nil => rfl
    | cons b rest =>
      have hlt := hranges b (hpre ▸ mem_append_right _ mem_cons_self)
      exact absurd (hbehind b rfl) (by omega)
  subst hnil
  refine ⟨.node r.startCharOffset r.endCharOffset (r.count - 0) ts, ?_, ?_⟩
  · rw [fromSortedRangesInner, if_pos hr, hread]
  · rw [toRanges_eq, preorder, add_sub_cancel, hpre, append_nil]

/-- Reading and writing undo each other: for ranges that all start in the first one, which does not
start at `usize::MAX`, and for every well-formed tree. -/
theorem toRanges_fromSortedRanges_inverse :
    (∀ (r : CoverageRange κ) (ranges : List (CoverageRange κ)), r.startCharOffset < usizeMax →
      (∀ b ∈ ranges, b.startCharOffset < r.endCharOffset) →
        ∃ t, fromSortedRangesInner (2 * (r :: ranges).length + 1) (r :: ranges) usizeMax 0 =
          (some t, []) ∧ toRanges t = r :: ranges) ∧
    ∀ t : RangeTree κ, t.WF → t.stop ≤ usizeMax → fromSortedRanges (toRanges t) = some t :=
  ⟨fun _ _ => toRanges_fromSortedRanges, fun t h ht => toRanges_eq t ▸ fromSortedRanges_preorder h ht⟩

/-- Ranges that are not nested. -/
theorem toRanges_fromSortedRanges_overlap :
    ∃ t : RangeTree ℤ, fromSortedRangesInner 5 [⟨0, 10, 1⟩, ⟨5, 20, 3⟩] usizeMax 0 = (some t, []) ∧
      toRanges t = [⟨0, 10, 1⟩, ⟨5, 20, 3⟩] :=
  toRanges_fromSortedRanges_inverse.1 ⟨0, 10, 1⟩ [⟨5, 20, 3⟩] (by decide) (by simp)

/-- `usize::MAX` is the end of the parent of the first range. -/
theorem fromSortedRanges_usizeMax :
    fromSortedRanges [(⟨usizeMax, usizeMax, 1⟩ : CoverageRange ℤ)] = none := by
  simp [fromSortedRanges, fromSortedRangesInner]

/-! ### Counts and values -/

mutual

lemma countFrom_preorder (x : ℕ) : ∀ (c : κ) (t : RangeTree κ), t.WF →
    countFrom x c (preorder c t) = c + t.valueAt x
  | c, .node s e d cs, h => by
    obtain ⟨_, hcs⟩ := wf_node.mp h
    rw [preorder, countFrom, foldl_cons, ← countFrom, valueAt_node]
    by_cases hx : s ≤ x ∧ x < e
    · rw [if_pos hx, if_pos hx, countFrom_forestPreorder x _ cs hcs, add_assoc]
    · rw [if_neg hx, if_neg hx, add_zero]
      refine countFrom_of_outside c fun r hr => ?_
      have := forestPreorder_mem _ cs hcs r hr
      omega

lemma countFrom_forestPreorder (x : ℕ) : ∀ {lo hi : ℕ} (c : κ) (ts : List (RangeTree κ)),
    ForestWF lo hi ts → countFrom x c (forestPreorder c ts) = c + forestValue x ts
  | _, _, c, [], _ => by simp [countFrom]
  | lo, hi, c, t :: ts, h => by
    obtain ⟨_, ht, _, hts⟩ := forestWF_cons.mp h
    rw [forestPreorder, countFrom_append, forestValue_cons]
    by_cases hx : x < t.stop
    · -- everything behind the tree is behind the offset
      rw [countFrom_of_outside, countFrom_preorder x c t ht,
        forestValue_of_outside hts (by omega), add_zero]
      intro r hr
      have := forestPreorder_mem c ts hts r hr
      omega
    · have hout : countFrom x c (preorder c t) = c := by
        refine countFrom_of_outside c fun r hr => ?_
        have := preorder_mem c t ht r hr
        omega
      rw [hout, countFrom_forestPreorder x c ts hts, valueAt_of_le (by omega), zero_add]

end

/-- The count of the pre-order is the value of the tree. -/
theorem countAt_preorder {t : RangeTree κ} (h : t.WF) (x : ℕ) :
    countAt (preorder 0 t) x = t.valueAt x := by
  rw [countAt_eq, countFrom_preorder x 0 t h, zero_add]

end RangeTree

end Deno
