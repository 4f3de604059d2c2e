import Mathlib.Data.List.Basic

/-!
# Replacing an element by a list
-/

namespace Core

open List

variable {α : Type*} [DecidableEq α]

def replaceAll (c : α) (s t : List α) : List α := t.flatMap fun d => if d = c then s else [d]

def replaceFirst (c : α) (s : List α) : List α → List α
  | [] => []
  | d :: ds => if d = c then s ++ ds else d :: replaceFirst c s ds

variable {c : α} {s a b : List α}

lemma replaceAll_append (c : α) (s a b : List α) :
    replaceAll c s (a ++ b) = replaceAll c s a ++ replaceAll c s b :=
  flatMap_append

lemma replaceAll_of_notMem (h : c ∉ a) : replaceAll c s a = a := by
  induction a with
  | nil => rfl
  | cons d ds ih =>
    rw [mem_cons, not_or] at h
    rw [replaceAll, flatMap_cons, if_neg (Ne.symm h.1)]
    exact congrArg (d :: ·) (ih h.2)

lemma replaceAll_cons_self (c : α) (s a : List α) : replaceAll c s (c :: a) =
    s ++ replaceAll c s a := by
  rw [replaceAll, flatMap_cons, if_pos rfl]
  rfl

lemma notMem_replaceAll (h : c ∉ s) : c ∉ replaceAll c s a := by
  rw [replaceAll, mem_flatMap]
  rintro ⟨d, -, hd⟩
  split_ifs at hd with heq
  · exact h hd
  · exact heq (List.mem_singleton.mp hd).symm

lemma replaceFirst_append_of_notMem (h : c ∉ a) :
    replaceFirst c s (a ++ b) = a ++ replaceFirst c s b := by
  induction a with
  | nil => rfl
  | cons d ds ih =>
    rw [mem_cons, not_or] at h
    rw [cons_append, replaceFirst, if_neg (Ne.symm h.1), ih h.2, cons_append]

lemma replaceFirst_of_notMem (h : c ∉ a) : replaceFirst c s a = a := by
  have := replaceFirst_append_of_notMem (s := s) (b := []) h
  rwa [replaceFirst, append_nil] at this

lemma replaceFirst_append_cons (h : c ∉ a) : replaceFirst c s (a ++ c :: b) = a ++ (s ++ b) := by
  rw [replaceFirst_append_of_notMem h, replaceFirst, if_pos rfl]

lemma replaceFirst_append_of_mem (h : c ∈ a) :
    replaceFirst c s (a ++ b) = replaceFirst c s a ++ b := by
  obtain ⟨before, after, rfl, hbefore⟩ := eq_append_cons_of_mem h
  rw [append_assoc, cons_append, replaceFirst_append_cons hbefore,
    replaceFirst_append_cons hbefore, append_assoc, append_assoc]

lemma replaceFirst_eq_replaceAll (ha : c ∉ a) (hb : c ∉ b) :
    replaceFirst c s (a ++ c :: b) = replaceAll c s (a ++ c :: b) := by
  rw [replaceFirst_append_cons ha, replaceAll_append, replaceAll_cons_self,
    replaceAll_of_notMem ha, replaceAll_of_notMem hb]

end Core
