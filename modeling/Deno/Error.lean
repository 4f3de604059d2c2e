import Mathlib.Tactic.Basic

/-!
# Errors of the runtime
-/

namespace Deno

/-- An error: a class with a message, a bare message, what the operating system says, or a
panic. -/
inductive AnyError where
  | custom (className message : String)
  | msg (text : String)
  | io (text : String)
  | panic (text : String)
  deriving DecidableEq

def typeError (message : String) : AnyError := .custom "TypeError" message

/-- Unwrapping a failed result panics with its error. -/
def unwrap {α : Type*} : Except AnyError α → Except AnyError α
  | .ok a => .ok a
  | .error _ => .error (.panic "called `Result::unwrap()` on an `Err` value")

/-- Unwrapping an option that is not there panics. -/
def unwrapOption {α : Type*} : Option α → Except AnyError α
  | some a => .ok a
  | none => .error (.panic "called `Option::unwrap()` on a `None` value")

lemma unwrapOption_eq_ok {α : Type*} {o : Option α} {a : α} :
    unwrapOption o = .ok a ↔ o = some a := by
  cases o with
  | none => exact ⟨nofun, nofun⟩
  | some b =>
    rw [unwrapOption, Except.ok.injEq, Option.some.injEq]

lemma bind_eq_ok {ε α β : Type} {x : Except ε α} {f : α → Except ε β} {b : β} :
    x >>= f = .ok b ↔ ∃ a, x = .ok a ∧ f a = .ok b := by
  constructor
  · intro h
    cases x with
    | error e => cases h
    | ok a => exact ⟨a, rfl, h⟩
  · rintro ⟨a, rfl, h⟩
    exact h

end Deno
