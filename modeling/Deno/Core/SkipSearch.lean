import Mathlib.Algebra.Group.Nat.Even
import Mathlib.Data.List.Infix
import Mathlib.Data.List.TakeWhile

/-!
# Searching with a skip

A pattern is searched for position by position, and where an attempt fails behind its first element,
the next position is passed over. So of the positions in a run of the first element, every other one
is looked at, and an occurrence is found exactly if an even number of these elements stand before it.
-/

namespace Core

open List

variable {α : Type*} [DecidableEq α] {pattern text : List α} {a : α} {k : ℕ}

def skipSearch (pattern : List α) : List α → Option ℕ
  | [] => none
  | b :: rest =>
    if pattern.isPrefixOf (b :: rest) then some 0
    else if pattern.head? = some b then (skipSearch pattern (rest.drop 1)).map (· + 2)
    else (skipSearch pattern rest).map (· + 1)
termination_by text => text.length
decreasing_by
  · simp only [length_drop, length_cons]
    omega
  · simp

/-! ### Runs -/

/-- How many elements at the end of a list are the given one. -/
def runLength (a : α) (l : List α) : ℕ := (l.reverse.takeWhile (· = a)).length

lemma runLength_append (a : α) (l m : List α) :
    runLength a (l ++ m) = if ∀ b ∈ m, b = a then runLength a l + m.length else runLength a m := by
  have hall : (m.reverse.takeWhile (· = a)).length = m.reverse.length ↔ ∀ b ∈ m, b = a := by
    constructor
    · intro h b hb
      have hself := (List.takeWhile_prefix (· = a)).eq_of_length h
      have hmem := List.mem_reverse.mpr hb
      rw [← hself] at hmem
      simpa using mem_takeWhile_imp hmem
    · intro h
      rw [List.takeWhile_eq_self_iff.mpr]
      simpa using h
  simp only [runLength, reverse_append, takeWhile_append, hall]
  split_ifs with h
  · simp [Nat.add_comm]
  · rfl

lemma runLength_of_forall {l : List α} (h : ∀ b ∈ l, b = a) : runLength a l = l.length := by
  have happend := runLength_append a [] l
  rw [if_pos h] at happend
  simpa [runLength] using happend

lemma runLength_cons_of_ne {b : α} (h : b ≠ a) (l : List α) :
    runLength a (b :: l) = runLength a l := by
  rw [← singleton_append, runLength_append]
  split_ifs with hall
  · rw [runLength_of_forall hall]
    simp [runLength, h]
  · rfl

/-- Two positions further, with the element at the first of them. -/
lemma even_runLength_cons_cons (b : α) (l : List α) :
    Even (runLength a (a :: b :: l)) ↔ Even (runLength a l) := by
  rw [show a :: b :: l = [a, b] ++ l from rfl, runLength_append]
  split_ifs with hall
  · rw [runLength_of_forall hall]
    by_cases hb : b = a
    · simp [runLength, hb, parity_simps]
    · simp [runLength, hb]
  · rfl

/-! ### What is found -/

/-- The first number with a property, where the numbers before `c` do not have it. -/
lemma map_add_eq_some_iff {P Q : ℕ → Prop} {found : Option ℕ} {c : ℕ}
    (hfound : ∀ k, found = some k ↔ Q k ∧ ∀ j < k, ¬ Q j) (hlow : ∀ j < c, ¬ P j)
    (hshift : ∀ k, P (k + c) ↔ Q k) (k : ℕ) :
    found.map (· + c) = some k ↔ P k ∧ ∀ j < k, ¬ P j := by
  rw [Option.map_eq_some_iff]
  constructor
  · rintro ⟨k, hk, rfl⟩
    obtain ⟨hQ, hfirst⟩ := (hfound k).mp hk
    refine ⟨(hshift k).mpr hQ, fun j hj => ?_⟩
    by_cases hc : j < c
    · exact hlow j hc
    · obtain ⟨i, rfl⟩ := Nat.exists_eq_add_of_le' (not_lt.mp hc)
      rw [hshift]
      exact hfirst i (by omega)
  · rintro ⟨hP, hfirst⟩
    have hc : c ≤ k := by
      by_contra hlt
      exact hlow k (not_le.mp hlt) hP
    obtain ⟨i, rfl⟩ := Nat.exists_eq_add_of_le' hc
    refine ⟨i, (hfound i).mpr ⟨(hshift i).mp hP, fun j hj => ?_⟩, rfl⟩
    rw [← hshift]
    exact hfirst (j + c) (by omega)

def Visible (pattern text : List α) (a : α) (k : ℕ) : Prop :=
  pattern <+: text.drop k ∧ Even (runLength a (text.take k))

variable (hhead : pattern.head? = some a)

lemma visible_zero : Visible pattern text a 0 ↔ pattern <+: text := by
  simp [Visible, runLength]

lemma visible_cons_of_ne {b : α} (h : b ≠ a) :
    Visible pattern (b :: text) a (k + 1) ↔ Visible pattern text a k := by
  rw [Visible, Visible, drop_succ_cons, take_succ_cons, runLength_cons_of_ne h]

include hhead

lemma not_visible_nil : ¬ Visible pattern [] a k := by
  rintro ⟨hfront, -⟩
  rw [drop_nil, prefix_nil] at hfront
  simp [hfront] at hhead

lemma visible_cons_add_two :
    Visible pattern (a :: text) a (k + 2) ↔ Visible pattern (text.drop 1) a k := by
  cases text with
  | nil =>
    refine ⟨fun h => absurd h.1 ?_, fun h => absurd h (not_visible_nil hhead)⟩
    exact fun hfront => not_visible_nil hhead ⟨hfront, by simp [runLength]⟩
  | cons b text =>
    simp [Visible, drop_succ_cons, even_runLength_cons_cons]

/-- The search finds the first occurrence that is looked at. -/
theorem skipSearch_eq_some_iff : skipSearch pattern text = some k ↔
    Visible pattern text a k ∧ ∀ j < k, ¬ Visible pattern text a j := by
  fun_induction skipSearch pattern text generalizing k with
  | case1 => simp [not_visible_nil hhead]
  | case2 b rest hfront =>
    rw [List.isPrefixOf_iff_prefix, ← visible_zero] at hfront
    rw [Option.some.injEq]
    constructor
    · rintro rfl
      exact ⟨hfront, by simp⟩
    · rintro ⟨-, hfirst⟩
      by_contra hne
      exact hfirst 0 (by omega) hfront
  | case3 b rest hfront hb ih =>
    rw [List.isPrefixOf_iff_prefix, ← visible_zero] at hfront
    obtain rfl : a = b := Option.some.inj (hhead.symm.trans hb)
    refine map_add_eq_some_iff (fun k => ih) (fun j hj => ?_)
      (fun k => visible_cons_add_two hhead) k
    -- The position that is passed over has one element before it.
    obtain rfl | rfl : j = 0 ∨ j = 1 := by omega
    · exact hfront
    · simp [Visible, runLength]
  | case4 b rest hfront hb ih =>
    rw [List.isPrefixOf_iff_prefix, ← visible_zero] at hfront
    have hne : b ≠ a := fun heq => hb (heq ▸ hhead)
    refine map_add_eq_some_iff (fun k => ih) (fun j hj => ?_) (fun k => visible_cons_of_ne hne) k
    obtain rfl : j = 0 := by omega
    exact hfront

end Core
