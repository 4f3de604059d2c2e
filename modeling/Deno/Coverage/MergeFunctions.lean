import Mathlib.Algebra.Ring.Int.Defs
import Deno.Coverage.MergeTrees
import Deno.Coverage.Normalize
import Deno.Coverage.Ranges

/-!
# Merging functions

The counts of functions with the same root range are added, offset by offset. The order of the
functions makes no difference to the ranges of the result.
-/

namespace Deno

open Core RangeTree List

variable {κ : Type}

/-- Functions whose ranges are well formed and share their root. -/
def SameRoot (s e : ℕ) (funcs : List (FunctionCoverage κ)) : Prop :=
  ∀ func ∈ funcs, RangesWF func.ranges ∧ HasRoot func.ranges s e

instance (s e : ℕ) (funcs : List (FunctionCoverage κ)) : Decidable (SameRoot s e funcs) :=
  inferInstanceAs (Decidable (∀ func ∈ funcs, RangesWF func.ranges ∧ HasRoot func.ranges s e))

variable [AddCommGroup κ]

def treesOfFunctions (funcs : List (FunctionCoverage κ)) : List (RangeTree κ) :=
  funcs.filterMap fun func => fromSortedRanges func.ranges

def rtaCapacity (funcs : List (FunctionCoverage κ)) : ℕ :=
  funcs.foldl (fun acc func => acc + func.ranges.length) 0

omit [AddCommGroup κ] in
lemma rtaCapacity_eq (funcs : List (FunctionCoverage κ)) :
    rtaCapacity funcs = (funcs.map fun func => func.ranges.length).sum := by
  rw [rtaCapacity, sum_eq_foldl, foldl_map]

variable {funcs funcs' : List (FunctionCoverage κ)}

omit [AddCommGroup κ] in
lemma rtaCapacity_perm (h : funcs.Perm funcs') : rtaCapacity funcs = rtaCapacity funcs' := by
  rw [rtaCapacity_eq, rtaCapacity_eq]
  exact (h.map _).sum_eq

section

variable {s e : ℕ} {funcs : List (FunctionCoverage κ)}

lemma treesOfFunctions_spec (hwf : SameRoot s e funcs) (he : e ≤ usizeMax) :
    SameRange s e (treesOfFunctions funcs) ∧
      (treesOfFunctions funcs).map (preorder 0) = funcs.map (·.ranges) := by
  induction funcs with
  | nil => exact ⟨fun _ ht => (nomatch ht), rfl⟩
  | cons func funcs ih =>
    obtain ⟨hranges, hroot⟩ := hwf func mem_cons_self
    obtain ⟨t, ht, hpre, hrange⟩ := fromSortedRanges_eq_some hranges hroot he
    obtain ⟨hsame, hmap⟩ := ih fun f hf => hwf f (mem_cons_of_mem _ hf)
    have hcons : treesOfFunctions (func :: funcs) = t :: treesOfFunctions funcs := by
      rw [treesOfFunctions, filterMap_cons, ht]
      rfl
    rw [hcons]
    refine ⟨List.forall_mem_cons.mpr ⟨hrange, hsame⟩, ?_⟩
    rw [map_cons, hmap, hpre, map_cons]

/-- The capacity of the arena is more than the depth of the trees. -/
lemma childDepths_lt (hwf : SameRoot s e funcs) (he : e ≤ usizeMax) (hne : funcs ≠ []) :
    treesOfFunctions funcs ≠ [] ∧ childDepths (treesOfFunctions funcs) < rtaCapacity funcs := by
  obtain ⟨_, hmap⟩ := treesOfFunctions_spec hwf he
  have hne' : treesOfFunctions funcs ≠ [] := by
    intro hnil
    rw [hnil] at hmap
    exact hne (List.map_eq_nil_iff.mp hmap.symm)
  have hlength : funcs.map (fun func => func.ranges.length) =
      (treesOfFunctions funcs).map size := by
    have := congrArg (List.map List.length) hmap
    rw [map_map, map_map] at this
    rw [← Function.comp_def List.length, ← this]
    exact map_congr_left fun t _ => length_preorder 0 t
  refine ⟨hne', ?_⟩
  rw [rtaCapacity_eq, hlength]
  refine sum_lt_sum_of_ne_nil hne' _ _ fun t _ => ?_
  have := depth_le_size t
  rw [depth_eq] at this
  omega

lemma valueAt_treesOfFunctions (hwf : SameRoot s e funcs) (he : e ≤ usizeMax) (x : ℕ) :
    ((treesOfFunctions funcs).map (valueAt x)).sum =
      (funcs.map fun func => countAt func.ranges x).sum := by
  obtain ⟨hsame, hmap⟩ := treesOfFunctions_spec hwf he
  have hcount := congrArg (List.map fun ranges => countAt ranges x) hmap
  rw [map_map, map_map] at hcount
  rw [← Function.comp_def (fun ranges => countAt ranges x), ← hcount]
  congr 1
  exact map_congr_left fun t ht => (countAt_preorder (hsame t ht).1 x).symm

end

variable [DecidableEq κ] {funcs : List (FunctionCoverage κ)}

lemma mergeFunctions_eq (ord : IterOrder (ℕ × List (RangeTree κ)))
    {func func' : FunctionCoverage κ} {merged : RangeTree κ}
    (h : mergeRangeTrees ord (rtaCapacity (func :: func' :: funcs))
      (treesOfFunctions (func :: func' :: funcs)) = some merged) :
    mergeFunctions ord (func :: func' :: funcs) = .ok (some ⟨func.functionName,
      merged.normalize.toRanges, !(merged.normalize.toRanges.length == 1 &&
        merged.normalize.toRanges.head?.map (·.count) == some 0)⟩) := by
  rw [rtaCapacity, treesOfFunctions] at h
  simp only [mergeFunctions, h]

/-- The result of a merge, its name aside. -/
def FunctionCoverage.view (func : FunctionCoverage κ) : List (CoverageRange κ) × Bool :=
  (func.ranges, func.isBlockCoverage)

/-- Merging functions in another order yields the same ranges. -/
lemma mergeFunctions_view_perm (ord ord' : IterOrder (ℕ × List (RangeTree κ))) {s e : ℕ}
    (hwf : SameRoot s e funcs) (he : e ≤ usizeMax) (hne : funcs ≠ []) (hperm : funcs.Perm funcs') :
    ∃ f f', mergeFunctions ord funcs = .ok (some f) ∧ mergeFunctions ord' funcs' = .ok (some f') ∧
      f.view = f'.view := by
  match funcs, funcs', hperm with
  | [], _, _ => exact absurd rfl hne
  | [func], _, hperm =>
    rw [← List.singleton_perm.mp hperm]
    exact ⟨func, func, rfl, rfl, rfl⟩
  | _ :: _ :: _, [], hperm | _ :: _ :: _, [_], hperm => exact absurd hperm.length_eq (by simp)
  | func₁ :: func₂ :: funcs, func₁' :: func₂' :: funcs', hperm =>
    obtain ⟨hne', hfuel⟩ := childDepths_lt hwf he hne
    obtain ⟨hsame, _⟩ := treesOfFunctions_spec hwf he
    obtain ⟨merged, hmerged, _⟩ := mergeRangeTrees_realizes ord hsame hne' hfuel
    have hmerged' := mergeRangeTrees_perm ord ord' (rtaCapacity (func₁ :: func₂ :: funcs)) hsame
      (hperm.filterMap _)
    rw [hmerged, rtaCapacity_perm hperm] at hmerged'
    exact ⟨_, _, mergeFunctions_eq ord hmerged, mergeFunctions_eq ord' hmerged'.symm, rfl⟩

/-- Merging adds the counts: for functions that share a root the result is well formed, has that
root, and counts at every offset the sum of what they count there. -/
theorem mergeFunctions_countAt (ord : IterOrder (ℕ × List (RangeTree κ))) {s e : ℕ}
    (hne : funcs ≠ []) (hwf : SameRoot s e funcs) (he : e ≤ usizeMax) :
    ∃ merged, mergeFunctions ord funcs = .ok (some merged) ∧ RangesWF merged.ranges ∧
      HasRoot merged.ranges s e ∧ ∀ x, s ≤ x → x < e →
        countAt merged.ranges x = (funcs.map fun func => countAt func.ranges x).sum := by
  match funcs, hne with
  | [func], _ =>
    obtain ⟨hranges, hroot⟩ := hwf func mem_cons_self
    exact ⟨func, rfl, hranges, hroot, fun x _ _ => by simp⟩
  | func :: func' :: funcs, hne =>
    obtain ⟨hne', hfuel⟩ := childDepths_lt hwf he hne
    obtain ⟨hsame, _⟩ := treesOfFunctions_spec hwf he
    obtain ⟨merged, hmerged, hwf', hs, he', hvalue⟩ := mergeRangeTrees_realizes ord hsame hne' hfuel
    obtain ⟨hnwf, hns, hne'', hnvalue⟩ := normalizeTo_realizes merged.depth hwf'
    rw [← RangeTree.normalize] at hnwf hns hne'' hnvalue
    refine ⟨_, mergeFunctions_eq ord hmerged, ?_, ?_, fun x _ _ => ?_⟩
    · rw [toRanges_eq]
      exact rangesWF_preorder 0 hnwf
    · rw [toRanges_eq, ← hs, ← he', ← hns, ← hne'', preorder_eq]
      rfl
    · rw [toRanges_eq, countAt_preorder hnwf, hnvalue, hvalue, valueAt_treesOfFunctions hwf he]

/-- Two profiles of one function whose inner ranges overlap. -/
theorem mergeFunctions_countAt_overlapping : ∃ merged, mergeFunctions (IterOrder.insertion _)
        [⟨"lib", [⟨0, 9, (10 : ℤ)⟩, ⟨2, 5, 1⟩], true⟩, ⟨"lib", [⟨0, 9, 20⟩, ⟨4, 7, 2⟩], true⟩] =
          .ok (some merged) ∧ RangesWF merged.ranges ∧ HasRoot merged.ranges 0 9 ∧
      ∀ x, 0 ≤ x → x < 9 → countAt merged.ranges x = ([⟨"lib", [⟨0, 9, 10⟩, ⟨2, 5, 1⟩], true⟩,
          (⟨"lib", [⟨0, 9, 20⟩, ⟨4, 7, 2⟩], true⟩ : FunctionCoverage ℤ)].map fun func =>
            countAt func.ranges x).sum :=
  mergeFunctions_countAt _ (by decide) (by decide) (by decide)

/-- Normalizing a tree changes neither its root nor what its ranges count at an offset. -/
theorem toRanges_normalize {t : RangeTree κ} (h : t.WF) :
    RangesWF t.normalize.toRanges ∧ HasRoot t.normalize.toRanges t.start t.stop ∧
      ∀ x, countAt t.normalize.toRanges x = countAt t.toRanges x := by
  obtain ⟨hwf, hstart, hstop, hvalue⟩ := normalizeTo_realizes t.depth h
  rw [toRanges_eq, toRanges_eq, RangeTree.normalize]
  refine ⟨rangesWF_preorder 0 hwf, ?_, fun x => ?_⟩
  · rw [HasRoot, preorder_eq, hstart, hstop]
    rfl
  · rw [countAt_preorder hwf, countAt_preorder h, hvalue]

/-- Two ranges that become one. -/
theorem toRanges_normalize_chain : countAt [⟨0, 4, (2 : ℤ)⟩] 3 =
    countAt (node 0 4 1 [node 0 2 1 [], node 2 4 1 []]).toRanges 3 :=
  (toRanges_normalize (t := node 0 4 (1 : ℤ) [node 0 2 1 [], node 2 4 1 []]) (by simp)).2.2 3

end Deno
