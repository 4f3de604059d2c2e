import Deno.Core.Text

/-!
# Searching and slicing texts by bytes

A character of a text is found at the offset of its first byte. A slice between two offsets is
there if they are in order and characters end at both.
-/

namespace Core

open List

open String (utf8Len)

def findByte (c : Char) : List Char → Option ℕ
  | [] => none
  | d :: ds => if d = c then some 0 else (findByte c ds).map (· + d.utf8Size)

def rfindByte (c : Char) : List Char → Option ℕ
  | [] => none
  | d :: ds =>
    match rfindByte c ds with
    | some n => some (n + d.utf8Size)
    | none => if d = c then some 0 else none

def sliceBytes (start stop : ℕ) (text : List Char) : Option (List Char) :=
  if start ≤ stop then do
    let (_, rest) ← splitBytes start text
    let (slice, _) ← splitBytes (stop - start) rest
    return slice
  else none

variable {c : Char} {text before after : List Char}

lemma findByte_append (h : c ∉ before) : findByte c (before ++ c :: after) =
    some (utf8Len before) := by
  induction before with
  | nil => rw [nil_append, findByte, if_pos rfl, String.utf8Len_nil]
  | cons d ds ih =>
    rw [mem_cons, not_or] at h
    rw [cons_append, findByte, if_neg (Ne.symm h.1), ih h.2]
    rfl

lemma findByte_eq_none : findByte c text = none ↔ c ∉ text := by
  induction text with
  | nil => simp [findByte]
  | cons d ds ih =>
    rw [findByte, mem_cons, not_or]
    split_ifs with hd
    · simp [hd]
    · rw [Option.map_eq_none_iff, ih]
      exact (and_iff_right (Ne.symm hd)).symm

lemma eq_append_of_findByte {i : ℕ} (h : findByte c text = some i) :
    ∃ before after, text = before ++ c :: after ∧ c ∉ before ∧ i = utf8Len before := by
  have hmem : c ∈ text := by
    by_contra hnot
    rw [findByte_eq_none.mpr hnot] at h
    cases h
  obtain ⟨before, after, rfl, hbefore⟩ := eq_append_cons_of_mem hmem
  rw [findByte_append hbefore] at h
  exact ⟨before, after, rfl, hbefore, (Option.some.inj h).symm⟩

lemma rfindByte_eq_none : rfindByte c text = none ↔ c ∉ text := by
  induction text with
  | nil => simp [rfindByte]
  | cons d ds ih =>
    rw [rfindByte, mem_cons, not_or, ← ih]
    cases rfindByte c ds with
    | none => simp [eq_comm]
    | some n => simp

/-- The last occurrence is the first one exactly if there is no other. -/
lemma rfindByte_append (h : c ∉ before) : rfindByte c (before ++ c :: after) =
    some (utf8Len before) ↔ c ∉ after := by
  induction before with
  | nil =>
    have hpos := c.utf8Size_pos
    rw [nil_append, rfindByte, ← rfindByte_eq_none]
    cases rfindByte c after with
    | none => simp
    | some n => simp; omega
  | cons d ds ih =>
    rw [mem_cons, not_or] at h
    rw [← ih h.2, cons_append, rfindByte]
    cases hfind : rfindByte c (ds ++ c :: after) with
    | none =>
      rw [rfindByte_eq_none] at hfind
      exact absurd (mem_append_right ds mem_cons_self) hfind
    | some n => simp

lemma sliceBytes_append (before slice after : List Char) :
    sliceBytes (utf8Len before) (utf8Len before + utf8Len slice) (before ++ (slice ++ after)) =
      some slice := by
  rw [sliceBytes]
  simp [splitBytes_append]

/-- Offsets at which characters end are the only ones a text is sliced at. -/
lemma eq_of_sliceBytes {start stop : ℕ} {slice : List Char}
    (h : sliceBytes start stop text = some slice) :
    ∃ before after, text = before ++ (slice ++ after) ∧ utf8Len before = start ∧
      utf8Len before + utf8Len slice = stop := by
  unfold sliceBytes at h
  split_ifs at h with hle
  obtain ⟨⟨before, rest⟩, hsplit, h⟩ := Option.bind_eq_some_iff.mp h
  obtain ⟨⟨slice', after⟩, hsplit', h⟩ := Option.bind_eq_some_iff.mp h
  cases h
  obtain ⟨rfl, hbefore⟩ := eq_of_splitBytes hsplit
  obtain ⟨rfl, hslice⟩ := eq_of_splitBytes hsplit'
  exact ⟨before, after, rfl, hbefore, by omega⟩

end Core
