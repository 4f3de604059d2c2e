import Mathlib.Algebra.Ring.Nat
import Mathlib.Data.List.Basic

/-!
# Bytes

Strings of bytes, and numbers written in them with the most significant byte first.
-/

namespace Core

abbrev Bytes := List UInt8

/-- The `w` least significant bytes of a number, the most significant one first. -/
def beBytes : ℕ → ℕ → Bytes
  | 0, _ => []
  | w + 1, n => beBytes w (n / 256) ++ [UInt8.ofNat n]

def ofBeBytes (bytes : Bytes) : ℕ := bytes.foldl (fun n b => n * 256 + b.toNat) 0

@[simp] lemma length_beBytes (w n : ℕ) : (beBytes w n).length = w := by
  induction w generalizing n with
  | zero => rfl
  | succ w ih => rw [beBytes, List.length_append, ih, List.length_singleton]

lemma ofBeBytes_beBytes {w n : ℕ} (h : n < 256 ^ w) : ofBeBytes (beBytes w n) = n := by
  induction w generalizing n with
  | zero =>
    rw [Nat.pow_zero, Nat.lt_one_iff] at h
    subst h
    rfl
  | succ w ih =>
    have hdiv : n / 256 < 256 ^ w := by
      rw [Nat.div_lt_iff_lt_mul (by omega)]
      exact h
    have hprefix := ih hdiv
    unfold ofBeBytes at hprefix ⊢
    rw [beBytes, List.foldl_append, List.foldl_cons, List.foldl_nil, UInt8.toNat_ofNat']
    omega

end Core
