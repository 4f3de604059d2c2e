import Mathlib.Data.List.Basic

/-!
# Lists in lexicographic order

Lists over a linear order are compared at the first place at which they differ, and what is a front
part of another list comes before it. What lies between two lists with a common front part has it
too, and the next list after a given one is that list with the least element at its end.
-/

namespace Core

open List

variable {α : Type*} [LT α] [LE α] [Std.IsLinearOrder α] [Std.LawfulOrderLT α]
  {p k l : List α} {bot : α}

omit [Std.IsLinearOrder α] in
lemma append_lt_append_left_iff : p ++ k < p ++ l ↔ k < l := by
  induction p with
  | nil => rfl
  | cons a p ih =>
    rw [cons_append, cons_append, cons_lt_cons_iff, ih]
    simp [Std.lt_irrefl]

omit [Std.IsLinearOrder α] in
lemma append_le_append_left_iff : p ++ k ≤ p ++ l ↔ k ≤ l := by
  rw [← List.not_lt, ← List.not_lt, append_lt_append_left_iff]

lemma prefix_of_between {a b : List α} (ha : p <+: a) (hb : p <+: b) (hak : a ≤ k) (hkb : k ≤ b) :
    p <+: k := by
  induction p generalizing a b k with
  | nil => exact nil_prefix
  | cons c p ih =>
    obtain ⟨a, rfl⟩ := ha
    obtain ⟨b, rfl⟩ := hb
    cases k with
    | nil => simp at hak
    | cons d k =>
      rw [cons_append, cons_le_cons_iff] at hak hkb
      obtain hcd | ⟨rfl, hak⟩ := hak
      · obtain hdc | ⟨rfl, -⟩ := hkb
        · exact absurd (Std.lt_trans hcd hdc) Std.lt_irrefl
        · exact absurd hcd Std.lt_irrefl
      · obtain hdc | ⟨-, hkb⟩ := hkb
        · exact absurd hdc Std.lt_irrefl
        · exact List.cons_prefix_cons.mpr ⟨rfl, ih (prefix_append p a) (prefix_append p b) hak hkb⟩

lemma append_bot_le_iff (hbot : ∀ a, bot ≤ a) : k ++ [bot] ≤ l ↔ k < l := by
  induction k generalizing l with
  | nil =>
    cases l with
    | nil => simp
    | cons a l =>
      rw [nil_append, cons_le_cons_iff]
      simp only [nil_lt_cons, iff_true]
      obtain h | h := Std.le_iff_lt_or_eq.mp (hbot a)
      · exact .inl h
      · exact .inr ⟨h, nil_le l⟩
  | cons a k ih =>
    cases l with
    | nil => simp
    | cons b l => rw [cons_append, cons_le_cons_iff, cons_lt_cons_iff, ih]

end Core
