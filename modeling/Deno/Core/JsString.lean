import Deno.Core.Split

/-!
# Strings of UTF-16 units

A string is a list of code units. A unit is searched for by its index.
-/

namespace Core

abbrev JsString := List UInt16

instance : LawfulBEq JsString := inferInstance

/-- The unit of a character of the basic plane. -/
def unit (c : Char) : UInt16 := .ofNat c.toNat

/-- A string written in ASCII. -/
def js (s : String) : JsString := s.toList.map unit

def substring (s : JsString) (start stop : ℕ) : JsString := (s.take stop).drop start

def indexOf (c : UInt16) (s : JsString) : Option ℕ := s.idxOf? c

variable {c : UInt16} {s : JsString} {i : ℕ}

lemma ascii_of_all (h : s.all (· < 0x80) = true) : ∀ u ∈ s, u < 0x80 :=
  List.all_iff_forall_prop.mp h

@[simp] lemma indexOf_eq_none : indexOf c s = none ↔ c ∉ s := by simp [indexOf]

lemma indexOf_append {before after : JsString} (h : c ∉ before) :
    indexOf c (before ++ c :: after) = some before.length := idxOf?_append_cons h

lemma eq_append_of_indexOf (h : indexOf c s = some i) :
    ∃ before after, s = before ++ c :: after ∧ c ∉ before ∧ before.length = i :=
  eq_append_of_idxOf? h

/-! ### Reading at a position -/

section

variable {input after : JsString} {position start : ℕ}

lemma substring_append {read : JsString} (h : input.drop position = read ++ after)
    (hle : start ≤ position) (hlt : position ≤ input.length) :
    substring input start (position + read.length) = substring input start position ++ read := by
  have htake : input.take (position + read.length) = input.take position ++ read := by
    rw [List.take_add, h, List.take_left]
  have hlength : start ≤ (input.take position).length := by
    rw [List.length_take, Nat.min_eq_left hlt]
    exact hle
  rw [substring, htake, List.drop_append_of_le_length hlength, substring]

lemma substring_self (s : JsString) (position : ℕ) : substring s position position = [] := by
  rw [substring, List.drop_eq_nil_iff]
  exact List.length_take_le _ _

end

end Core
