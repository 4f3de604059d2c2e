import Mathlib.Data.List.Basic
import Mathlib.Data.Nat.ModEq

/-!
# Rings of slots

A ring is a row of slots used in a circle. Its elements start at one slot and go on around the
circle; the slots behind them hold whatever was left there.
-/

namespace Core

variable {α : Type*}

/-- The slots from `i` on, around a circle of `cap` slots, hold the elements of the list. -/
def Occupies (slots : ℕ → Option α) (cap : ℕ) : ℕ → List α → Prop
  | _, [] => True
  | i, a :: l => slots i = some a ∧ Occupies slots cap ((i + 1) % cap) l

/-- What the `n` slots from `i` on hold. -/
def ringElems (slots : ℕ → Option α) (cap : ℕ) : ℕ → ℕ → List α
  | _, 0 => []
  | i, n + 1 => (slots i).toList ++ ringElems slots cap ((i + 1) % cap) n

namespace Occupies

variable {slots : ℕ → Option α} {cap i j : ℕ} {a : α} {l : List α}

lemma ringElems_eq (h : Occupies slots cap i l) : ringElems slots cap i l.length = l := by
  induction l generalizing i with
  | nil => rfl
  | cons a l ih =>
    obtain ⟨ha, hl⟩ := h
    rw [List.length_cons, ringElems, ha, ih hl]
    rfl

lemma append (hi : i < cap) (h : Occupies slots cap i l)
    (ha : slots ((i + l.length) % cap) = some a) : Occupies slots cap i (l ++ [a]) := by
  induction l generalizing i with
  | nil =>
    rw [List.length_nil, Nat.add_zero, Nat.mod_eq_of_lt hi] at ha
    exact ⟨ha, trivial⟩
  | cons b l ih =>
    obtain ⟨hb, hl⟩ := h
    refine ⟨hb, ih (Nat.mod_lt _ (by omega)) hl ?_⟩
    rw [Nat.mod_add_mod, Nat.add_assoc, Nat.add_comm 1]
    exact ha

lemma update (hj : ∀ k < l.length, (i + k) % cap ≠ j) (hi : i < cap) (x : Option α)
    (h : Occupies slots cap i l) : Occupies (Function.update slots j x) cap i l := by
  induction l generalizing i with
  | nil => trivial
  | cons b l ih =>
    obtain ⟨hb, hl⟩ := h
    have hij : i ≠ j := by
      have := hj 0 (Nat.succ_pos _)
      rwa [Nat.add_zero, Nat.mod_eq_of_lt hi] at this
    refine ⟨by rwa [Function.update_of_ne hij], ih (fun k hk => ?_) (Nat.mod_lt _ (by omega)) hl⟩
    rw [Nat.mod_add_mod, Nat.add_assoc, Nat.add_comm 1]
    exact hj (k + 1) (Nat.succ_lt_succ hk)

end Occupies

lemma ring_index_ne {cap i k n : ℕ} (hk : k < n) (hn : n < cap) :
    (i + k) % cap ≠ (i + n) % cap := by
  intro h
  have hmod : k ≡ n [MOD cap] := Nat.ModEq.add_left_cancel' i h
  have : k = n := hmod.eq_of_lt_of_lt (by omega) hn
  omega

end Core
