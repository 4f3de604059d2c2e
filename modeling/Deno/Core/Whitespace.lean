import Mathlib.Data.List.DropRight

/-!
# Trimming texts
-/

namespace Core

def isWhitespace (c : Char) : Bool :=
  [0x20, 0x85, 0xA0, 0x1680, 0x2028, 0x2029, 0x202F, 0x205F, 0x3000].contains c.toNat ||
    (9 ≤ c.toNat && c.toNat ≤ 13) || (0x2000 ≤ c.toNat && c.toNat ≤ 0x200A)

def trimStart (text : List Char) : List Char := text.dropWhile isWhitespace

def trim (text : List Char) : List Char := (trimStart text).rdropWhile isWhitespace

lemma mem_of_mem_trim {text : List Char} {c : Char} (h : c ∈ trim text) : c ∈ text :=
  (List.dropWhile_sublist _).subset ((List.rdropWhile_prefix _ _).subset h)

end Core
