import Mathlib.Data.List.Basic

/-!
# Searching with a restart

A pattern is searched for with an index into it. At a mismatch the search starts over behind the
element that did not match, without a second look at it: so not every occurrence is found.
-/

namespace Core

open List

variable {α : Type*} [DecidableEq α] {pattern : List α}

def advance (pattern : List α) (index : ℕ) (a : α) : ℕ :=
  if pattern[index]? = some a then index + 1 else 0

/-- How many elements there are up to the end of what is found. -/
def searchEnd (pattern : List α) : ℕ → List α → Option ℕ
  | _, [] => none
  | index, a :: as =>
    if advance pattern index a ≥ pattern.length then some 1
    else (searchEnd pattern (advance pattern index a) as).map (· + 1)

def searchIndex (pattern : List α) (index : ℕ) (as : List α) : ℕ := as.foldl (advance pattern) index

/-- An attempt that fails: a part of the pattern, and an element that does not go on with it. -/
def IsAttempt (pattern w : List α) : Prop :=
  ∃ p a, w = p ++ [a] ∧ p.length < pattern.length ∧ p <+: pattern ∧ ¬p ++ [a] <+: pattern

/-- The pattern is found: it comes behind attempts that fail. -/
def IsFound (pattern as : List α) : Prop :=
  ∃ (ws : List (List α)) (after : List α), as = ws.flatten ++ pattern ++ after ∧
    ∀ w ∈ ws, IsAttempt pattern w

section

variable {index n : ℕ} {a : α} {as bs : List α}

lemma advance_of_eq (h : pattern[index]? = some a) : advance pattern index a = index + 1 := if_pos h

lemma advance_of_ne (h : pattern[index]? ≠ some a) : advance pattern index a = 0 := if_neg h

lemma searchEnd_append : searchEnd pattern index (as ++ bs) =
      match searchEnd pattern index as with
      | some n => some n
      | none => (searchEnd pattern (searchIndex pattern index as) bs).map (· + as.length) := by
  induction as generalizing index with
  | nil => simp [searchEnd, searchIndex]
  | cons a as ih =>
    rw [cons_append, searchEnd, searchEnd]
    split_ifs with hend
    · rfl
    · rw [ih]
      cases searchEnd pattern (advance pattern index a) as with
      | some n => rfl
      | none =>
        simp only [Option.map_none, Option.map_map, searchIndex, foldl_cons, length_cons]
        rfl

lemma searchIndex_lt (hindex : index < pattern.length)
    (h : searchEnd pattern index as = none) : searchIndex pattern index as < pattern.length := by
  induction as generalizing index with
  | nil => exact hindex
  | cons a as ih =>
    rw [searchEnd] at h
    split_ifs at h with hend
    exact ih (Nat.lt_of_not_ge hend) (Option.map_eq_none_iff.mp h)

lemma searchEnd_drop {index : ℕ} (hindex : index < pattern.length) :
    searchEnd pattern index (pattern.drop index) = some (pattern.length - index) := by
  rw [drop_eq_getElem_cons hindex, searchEnd, advance_of_eq (getElem?_eq_getElem hindex)]
  split_ifs with hend
  · congr 1
    omega
  · rw [searchEnd_drop (Nat.lt_of_not_ge hend), Option.map_some]
    congr 1
    omega
termination_by pattern.length - index

lemma searchEnd_le (h : searchEnd pattern index as = some n) : n ≤ as.length := by
  induction as generalizing index n with
  | nil => cases h
  | cons a as ih =>
    rw [searchEnd] at h
    split_ifs at h with hend
    · cases h
      exact Nat.le_add_left _ _
    · obtain ⟨m, hm, rfl⟩ := Option.map_eq_some_iff.mp h
      exact Nat.succ_le_succ (ih hm)

/-- What is read up to the end: attempts that fail, and the pattern. -/
lemma eq_of_searchEnd (hindex : index < pattern.length) (h : searchEnd pattern index as = some n) :
    ∃ ws : List (List α), pattern.take index ++ as.take n = ws.flatten ++ pattern ∧
      ∀ w ∈ ws, IsAttempt pattern w := by
  induction as generalizing index n with
  | nil => cases h
  | cons a as ih =>
    rw [searchEnd] at h
    by_cases hmatch : pattern[index]? = some a
    · have htake : pattern.take (index + 1) = pattern.take index ++ [a] := by
        rw [take_add_one, hmatch]
        rfl
      rw [advance_of_eq hmatch] at h
      split_ifs at h with hend
      · cases h
        refine ⟨[], ?_, fun w hw => absurd hw not_mem_nil⟩
        rw [take_succ_cons, take_zero, ← htake, take_of_length_le hend]
        rfl
      · obtain ⟨m, hm, rfl⟩ := Option.map_eq_some_iff.mp h
        obtain ⟨ws, heq, hws⟩ := ih (Nat.lt_of_not_ge hend) hm
        refine ⟨ws, ?_, hws⟩
        rw [← heq, htake, append_assoc, singleton_append, take_succ_cons]
    · rw [advance_of_ne hmatch, if_neg (by omega)] at h
      obtain ⟨m, hm, rfl⟩ := Option.map_eq_some_iff.mp h
      obtain ⟨ws, heq, hws⟩ := ih (Nat.lt_of_le_of_lt (Nat.zero_le _) hindex) hm
      have hlength : (pattern.take index).length = index := by
        rw [length_take, Nat.min_eq_left (Nat.le_of_lt hindex)]
      have hattempt : IsAttempt pattern (pattern.take index ++ [a]) := by
        refine ⟨pattern.take index, a, rfl, by rwa [hlength], take_prefix _ _,
          fun hprefix => hmatch ?_⟩
        obtain ⟨rest, hrest⟩ := hprefix
        have hget : (pattern.take index ++ ([a] ++ rest))[index]? = some a := by
          rw [getElem?_append_right (Nat.le_of_eq hlength), hlength, Nat.sub_self]
          rfl
        rwa [← append_assoc, hrest] at hget
      refine ⟨(pattern.take index ++ [a]) :: ws, ?_, List.forall_mem_cons.mpr ⟨hattempt, hws⟩⟩
      rw [flatten_cons, append_assoc, ← heq, append_assoc]
      rfl

lemma search_take {k : ℕ} (h : index + k < pattern.length) :
    searchEnd pattern index ((pattern.drop index).take k) = none ∧
      searchIndex pattern index ((pattern.drop index).take k) = index + k := by
  induction k generalizing index with
  | zero => exact ⟨by rw [take_zero, searchEnd], by rfl⟩
  | succ k ih =>
    have hindex : index < pattern.length := by omega
    obtain ⟨hend, hlast⟩ := @ih (index + 1) (by omega)
    have hadvance := advance_of_eq (getElem?_eq_getElem hindex)
    rw [drop_eq_getElem_cons hindex, take_succ_cons]
    constructor
    · rw [searchEnd, hadvance, if_neg (by omega), hend]
      rfl
    · rw [searchIndex, foldl_cons, hadvance]
      exact hlast.trans (by omega)

/-- An attempt that fails leads back to the start of the pattern. -/
lemma IsAttempt.searchEnd_append {w : List α} (h : IsAttempt pattern w) (as : List α) :
    searchEnd pattern 0 (w ++ as) = (searchEnd pattern 0 as).map (· + w.length) := by
  obtain ⟨p, a, rfl, hlt, hprefix, hnot⟩ := h
  have htake : pattern.take p.length = p := List.prefix_iff_eq_take.mp hprefix |>.symm
  obtain ⟨hend, hlast⟩ := @search_take α _ pattern 0 p.length (by omega)
  rw [drop_zero, htake] at hend hlast
  rw [Nat.zero_add] at hlast
  have hmismatch : pattern[p.length]? ≠ some a := by
    intro heq
    apply hnot
    rw [prefix_iff_eq_take, length_append, length_singleton, take_add_one, htake, heq]
    rfl
  rw [append_assoc, Core.searchEnd_append, hend]
  rw [hlast, singleton_append, searchEnd, advance_of_ne hmismatch, if_neg (by omega)]
  cases searchEnd pattern 0 as with
  | none => rfl
  | some n =>
    simp only [Option.map_some, length_append, length_singleton]
    congr 1
    omega

lemma isFound_iff (hne : pattern ≠ []) :
    IsFound pattern as ↔ ∃ n, searchEnd pattern 0 as = some n := by
  have hpos : 0 < pattern.length := length_pos_of_ne_nil hne
  constructor
  · rintro ⟨ws, after, rfl, hws⟩
    induction ws with
    | nil =>
      have hend := @searchEnd_drop α _ pattern 0 hpos
      rw [drop_zero, Nat.sub_zero] at hend
      refine ⟨pattern.length, ?_⟩
      rw [flatten_nil, nil_append, searchEnd_append, hend]
    | cons w ws ih =>
      obtain ⟨hw, hws⟩ := List.forall_mem_cons.mp hws
      obtain ⟨n, hn⟩ := ih hws
      refine ⟨n + w.length, ?_⟩
      rw [flatten_cons, append_assoc, append_assoc, hw.searchEnd_append,
        ← append_assoc, hn, Option.map_some]
  · rintro ⟨n, hn⟩
    obtain ⟨ws, heq, hws⟩ := eq_of_searchEnd hpos hn
    refine ⟨ws, as.drop n, ?_, hws⟩
    rw [← heq, take_zero, nil_append, take_append_drop]

end

end Core
