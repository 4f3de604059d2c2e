import Mathlib.Algebra.Ring.Nat
import Mathlib.Data.Bool.AllAny
import Mathlib.Data.List.TakeWhile

/-!
# Splitting a list at a separator
-/

namespace Core

open List

variable {α : Type*}

/-- Induction over the parts of a list between separators. -/
@[elab_as_elim]
theorem parts_ind [DecidableEq α] (sep : α) {motive : List α → Prop}
    (last : ∀ w, sep ∉ w → motive w)
    (cons : ∀ w rest, sep ∉ w → motive rest → motive (w ++ sep :: rest)) (l : List α) :
    motive l := by
  by_cases h : sep ∈ l
  · obtain ⟨w, rest, hl, hw⟩ := eq_append_cons_of_mem h
    rw [hl]
    exact cons w rest hw (parts_ind sep last cons rest)
  · exact last l h
termination_by l.length

section

variable [DecidableEq α] {sep c : α} {l w : List α}

lemma notMem_of_mem_splitOn (h : w ∈ l.splitOn sep) : sep ∉ w := by
  induction l using parts_ind sep with
  | last v hv =>
    rw [splitOn_eq_singleton hv, mem_singleton] at h
    rwa [h]
  | cons v rest hv ih =>
    rw [splitOn_append_cons_self_of_not_mem hv] at h
    rcases List.mem_cons.mp h with rfl | h
    · exact hv
    · exact ih h

lemma mem_of_mem_splitOn (h : w ∈ l.splitOn sep) (hc : c ∈ w) : c ∈ l := by
  induction l using parts_ind sep with
  | last v hv =>
    rw [splitOn_eq_singleton hv, mem_singleton] at h
    rwa [← h]
  | cons v rest hv ih =>
    rw [splitOn_append_cons_self_of_not_mem hv] at h
    rcases List.mem_cons.mp h with rfl | h
    · exact mem_append_left _ hc
    · exact mem_append_right _ (mem_cons_of_mem _ (ih h))

end

lemma flatMap_append_singleton (sep : α) {parts : List (List α)} (h : parts ≠ []) :
    parts.flatMap (· ++ [sep]) = [sep].intercalate parts ++ [sep] := by
  induction parts with
  | nil => exact absurd rfl h
  | cons w ws ih =>
    cases ws with
    | nil => simp
    | cons w' ws' =>
      rw [flatMap_cons, ih (by simp)]
      simp

section

variable [DecidableEq α] {c : α} {s before after : List α} {i : ℕ}

lemma idxOf?_append_cons (h : c ∉ before) : (before ++ c :: after).idxOf? c = some before.length := by
  induction before with
  | nil => simp [idxOf?_cons]
  | cons d ds ih =>
    simp only [mem_cons, not_or] at h
    simp [idxOf?_cons, ih h.2, Ne.symm h.1]

lemma eq_append_of_idxOf? (h : s.idxOf? c = some i) :
    ∃ before after, s = before ++ c :: after ∧ c ∉ before ∧ before.length = i := by
  have hmem : c ∈ s := by
    by_contra hc
    rw [List.idxOf?_eq_none_iff.mpr hc] at h
    cases h
  obtain ⟨before, after, rfl, hbefore⟩ := eq_append_cons_of_mem hmem
  rw [idxOf?_append_cons hbefore] at h
  exact ⟨before, after, rfl, hbefore, Option.some.inj h⟩

lemma append_cons_inj {before' after' : List α} (h : c ∉ before) (h' : c ∉ before')
    (heq : before ++ c :: after = before' ++ c :: after') : before = before' ∧ after = after' := by
  have hlength : before.length = before'.length := by
    have hindex := congrArg (List.idxOf? c) heq
    rw [idxOf?_append_cons h, idxOf?_append_cons h'] at hindex
    exact Option.some.inj hindex
  obtain ⟨h₁, h₂⟩ := append_inj heq hlength
  exact ⟨h₁, (List.cons.inj h₂).2⟩

end

section

variable [DecidableEq α] {c : α} {a b : List α}

lemma forall_decide_ne (h : c ∉ a) : ∀ x ∈ a, decide (x ≠ c) = true := by
  intro x hx
  rw [decide_eq_true_eq]
  rintro rfl
  exact h hx

lemma takeWhile_ne_of_notMem (h : c ∉ a) : a.takeWhile (· ≠ c) = a :=
  List.takeWhile_eq_self_iff.mpr (forall_decide_ne h)

lemma dropWhile_ne_of_notMem (h : c ∉ a) : a.dropWhile (· ≠ c) = [] :=
  List.dropWhile_eq_nil_iff.mpr (forall_decide_ne h)

lemma takeWhile_ne_append (h : c ∉ a) : (a ++ c :: b).takeWhile (· ≠ c) = a := by
  rw [takeWhile_append_of_pos (forall_decide_ne h)]
  simp

lemma dropWhile_ne_append (h : c ∉ a) : (a ++ c :: b).dropWhile (· ≠ c) = c :: b := by
  rw [dropWhile_append_of_pos (forall_decide_ne h)]
  simp

end

/-! ### Reading at a position -/

section

variable {input after : List α} {position : ℕ} {c : α}

lemma drop_add_length {read : List α} (h : input.drop position = read ++ after) :
    input.drop (position + read.length) = after := by
  rw [← drop_drop, h, drop_left]

variable (h : input.drop position = c :: after)

include h

lemma drop_succ : input.drop (position + 1) = after := by
  have happend : input.drop position = [c] ++ after := h
  exact drop_add_length happend

lemma getElem?_position : input[position]? = some c := by
  rw [← head?_drop, h, head?_cons]

lemma lt_length_of_drop : position < input.length := by
  have := congrArg List.length h
  simp only [length_drop, length_cons] at this
  omega

lemma getElem_position (hlt : position < input.length) : input[position] = c := by
  have := getElem?_position h
  rwa [getElem?_eq_getElem hlt, Option.some.injEq] at this

end

end Core
