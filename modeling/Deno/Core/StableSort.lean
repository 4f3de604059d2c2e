import Mathlib.Data.List.Basic

/-!
# Sorting by a key

Entries with the same key keep their order.
-/

namespace Core

open List

variable {α K : Type*} [LE K] [DecidableLE K] (key : α → K)

def sortBy (l : List α) : List α := l.mergeSort fun a b => key a ≤ key b

variable [Std.IsLinearOrder K]

lemma key_le_trans (a b c : α) (hab : decide (key a ≤ key b) = true)
    (hbc : decide (key b ≤ key c) = true) : decide (key a ≤ key c) = true :=
  decide_eq_true (Std.le_trans (of_decide_eq_true hab) (of_decide_eq_true hbc))

lemma key_le_total (a b : α) : (decide (key a ≤ key b) || decide (key b ≤ key a)) = true := by
  simpa using Std.le_total

lemma pairwise_sortBy (l : List α) : (sortBy key l).Pairwise fun a b => key a ≤ key b :=
  (pairwise_mergeSort (key_le_trans key) (key_le_total key) l).imp of_decide_eq_true

lemma filter_sortBy [DecidableEq K] (l : List α) (k : K) :
    ((sortBy key l).filter fun a => key a = k) = l.filter fun a => key a = k := by
  have hsame : (l.filter fun a => key a = k).Pairwise fun a b => decide (key a ≤ key b) = true := by
    refine pairwise_of_forall_mem_list fun a ha b hb => ?_
    rw [mem_filter, decide_eq_true_eq] at ha hb
    rw [ha.2, hb.2]
    exact decide_eq_true (Std.le_refl k)
  have hsub := sublist_mergeSort (key_le_trans key) (key_le_total key) hsame filter_sublist
  have hfilter := hsub.filter fun a => key a = k
  rw [filter_filter] at hfilter
  simp only [Bool.and_self] at hfilter
  refine (hfilter.eq_of_length ?_).symm
  exact ((mergeSort_perm l _).filter _).length_eq.symm

end Core
