import Mathlib.Algebra.Ring.Nat
import Mathlib.Data.Nat.Log

/-!
# Integers as numbers

A number has 53 significant bits: an integer with more bits is rounded to the nearest one that fits,
and to the one with an even significand if two are as near.
-/

namespace Core

def excessBits (n : ℕ) : ℕ := n.log2 - 52

def roundNat (n : ℕ) : ℕ :=
  let unit := 2 ^ excessBits n
  if 2 * (n % unit) < unit ∨ 2 * (n % unit) = unit ∧ n / unit % 2 = 0 then n / unit * unit
  else (n / unit + 1) * unit

def roundNumber (n : ℤ) : ℤ := if n < 0 then -roundNat n.natAbs else roundNat n.natAbs

def addNumbers (a b : ℤ) : ℤ := roundNumber (a + b)

def subNumbers (a b : ℤ) : ℤ := roundNumber (a - b)

def maxSafeInteger : ℕ := 2 ^ 53 - 1

lemma roundNat_of_le {n : ℕ} (h : n ≤ maxSafeInteger) : roundNat n = n := by
  have hlog : excessBits n = 0 := by
    rcases Nat.eq_zero_or_pos n with rfl | hpos
    · rfl
    · have hlt : n.log2 < 53 := (Nat.log2_lt hpos.ne').mpr (by unfold maxSafeInteger at h; omega)
      exact Nat.sub_eq_zero_of_le (Nat.lt_succ_iff.mp hlt)
  simp [roundNat, hlog, Nat.mod_one]

lemma roundNumber_of_abs_le {n : ℤ} (h : n.natAbs ≤ maxSafeInteger) : roundNumber n = n := by
  rw [roundNumber, roundNat_of_le h]
  split_ifs with hneg
  · omega
  · omega

lemma addNumbers_natCast {a b : ℕ} (h : a + b ≤ maxSafeInteger) :
    addNumbers a b = ((a + b : ℕ) : ℤ) := by
  rw [addNumbers, roundNumber_of_abs_le (by omega)]
  rfl

lemma subNumbers_eq {a b : ℤ} (h : (a - b).natAbs ≤ maxSafeInteger) : subNumbers a b = a - b :=
  roundNumber_of_abs_le h

lemma subNumbers_natCast {a b : ℕ} (hle : b ≤ a) (h : a ≤ maxSafeInteger) :
    subNumbers a b = ((a - b : ℕ) : ℤ) := by
  rw [subNumbers_eq (by omega)]
  omega

/-- The first integer that is not a number. -/
example : addNumbers (2 ^ 53) 1 = 2 ^ 53 := by decide

end Core
