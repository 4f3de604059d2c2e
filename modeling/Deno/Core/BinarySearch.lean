import Mathlib.Order.Lattice
import Mathlib.Data.List.Basic

/-!
# Binary search

A list sorted by a key is searched by halving the part that can hold the key. The result is the
index of the element, or the index at which an element with the key has to be inserted.
-/

namespace Core

open List

variable {α κ : Type*}

/-- The search between `left` and `right`, with fuel for one round each. -/
def searchLoop (cmp : α → Ordering) (l : List α) : ℕ → ℕ → ℕ → Except ℕ ℕ
  | 0, left, _ => .error left
  | fuel + 1, left, right =>
    if left < right then
      let mid := left + (right - left) / 2
      match l[mid]?.map cmp with
      | some .eq => .ok mid
      | some .lt => searchLoop cmp l fuel (mid + 1) right
      | some .gt => searchLoop cmp l fuel left mid
      | none => .error left
    else .error left

/-- `binary_search_by`: the index of an element that compares equal, or where to insert one. -/
def binarySearchBy (cmp : α → Ordering) (l : List α) : Except ℕ ℕ :=
  searchLoop cmp l l.length 0 l.length

lemma insertIdx_length_append (before after : List α) (a : α) :
    (before ++ after).insertIdx before.length a = before ++ a :: after := by
  induction before with
  | nil => rfl
  | cons b bs ih => rw [cons_append, length_cons, insertIdx_succ_cons, ih]; rfl

section

variable [LinearOrder κ] {key : α → κ} {k : κ} {l : List α}

inductive SearchRule (key : α → κ) (k : κ) (l : List α) : Except ℕ ℕ → Prop where
  | found (before : List α) (a : α) (after : List α) (hl : l = before ++ a :: after)
      (hkey : key a = k) (hbefore : ∀ b ∈ before, key b < k) (hafter : ∀ b ∈ after, k < key b) :
      SearchRule key k l (.ok before.length)
  | absent (before after : List α) (hl : l = before ++ after) (hbefore : ∀ b ∈ before, key b < k)
      (hafter : ∀ b ∈ after, k < key b) : SearchRule key k l (.error before.length)

/-- The element at an index splits a sorted list into what has a smaller key and what has a
greater one. -/
lemma exists_split (hsorted : l.Pairwise (key · < key ·)) {i : ℕ} (hi : i < l.length) :
    ∃ before a after, l = before ++ a :: after ∧ before.length = i ∧
      (∀ b ∈ before, key b < key a) ∧ ∀ b ∈ after, key a < key b := by
  have hl : l = l.take i ++ l[i] :: l.drop (i + 1) := by
    rw [getElem_cons_drop, take_append_drop]
  refine ⟨_, _, _, hl, List.length_take_of_le (Nat.le_of_lt hi), ?_, ?_⟩
  · rw [hl, pairwise_append] at hsorted
    exact fun b hb => hsorted.2.2 b hb _ mem_cons_self
  · rw [hl, pairwise_append, pairwise_cons] at hsorted
    exact hsorted.2.1.1

lemma SearchRule.of_nothing_left {left : ℕ} (hleft : left ≤ l.length)
    (hbefore : ∀ b ∈ l.take left, key b < k) (hafter : ∀ b ∈ l.drop left, k < key b) :
    SearchRule key k l (.error left) := by
  have := SearchRule.absent _ _ (take_append_drop left l).symm hbefore hafter
  rwa [List.length_take_of_le hleft] at this

lemma SearchRule.of_searchLoop (hsorted : l.Pairwise (key · < key ·)) (fuel left right : ℕ)
    (hfuel : right - left ≤ fuel) (hle : left ≤ right) (hright : right ≤ l.length)
    (hbefore : ∀ b ∈ l.take left, key b < k) (hafter : ∀ b ∈ l.drop right, k < key b) :
    SearchRule key k l (searchLoop (fun a => compare (key a) k) l fuel left right) := by
  induction fuel generalizing left right with
  | zero =>
    obtain rfl : left = right := by omega
    exact .of_nothing_left hright hbefore hafter
  | succ fuel ih =>
    rw [searchLoop]
    split_ifs with hlt
    · have hmid : left + (right - left) / 2 < l.length := by omega
      obtain ⟨before, a, after, hl, hlen, hlow, hhigh⟩ := exists_split hsorted hmid
      have ha : l[left + (right - left) / 2]? = some a := by
        rw [hl, ← hlen]
        simp
      simp only [ha, Option.map_some]
      cases hcmp : compare (key a) k with
      | eq =>
        rw [compare_eq_iff_eq] at hcmp
        rw [hcmp] at hlow hhigh
        rw [← hlen]
        exact .found before a after hl hcmp hlow hhigh
      | lt =>
        rw [compare_lt_iff_lt] at hcmp
        refine ih _ _ (by omega) (by omega) hright (fun b hb => ?_) hafter
        rw [hl, ← hlen, take_length_add_append] at hb
        rcases List.mem_append.mp hb with hb | hb
        · exact (hlow b hb).trans hcmp
        · cases List.mem_singleton.mp hb
          exact hcmp
      | gt =>
        rw [compare_gt_iff_gt] at hcmp
        refine ih _ _ (by omega) (by omega) (by omega) hbefore (fun b hb => ?_)
        rw [hl, ← hlen, drop_left] at hb
        rcases List.mem_cons.mp hb with rfl | hb
        · exact hcmp
        · exact hcmp.trans (hhigh b hb)
    · obtain rfl : left = right := by omega
      exact .of_nothing_left hright hbefore hafter

/-- A sorted list is searched completely. -/
theorem SearchRule.of_binarySearchBy (hsorted : l.Pairwise (key · < key ·)) (k : κ) :
    SearchRule key k l (binarySearchBy (fun a => compare (key a) k) l) :=
  .of_searchLoop hsorted l.length 0 l.length (Nat.le_refl _) (Nat.zero_le _) (Nat.le_refl _)
    (by simp) (by simp)

end

end Core
