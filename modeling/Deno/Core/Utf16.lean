import Deno.Core.JsString
import Deno.Core.Utf8

/-!
# UTF-16

A character is written in one unit or in a pair of surrogates. A string is well formed if it is
the units of some characters; the surrogates of any other string that are not in a pair are read as
U+FFFD.
-/

namespace Core

open List

def utf16 (c : Char) : JsString :=
  let v := c.toNat
  if v < 0x10000 then [.ofNat v]
  else [.ofNat (0xD800 + (v - 0x10000) / 1024), .ofNat (0xDC00 + (v - 0x10000) % 1024)]

def encodeUtf16 (cs : List Char) : JsString := cs.flatMap utf16

lemma encodeUtf16_cons (c : Char) (cs : List Char) :
    encodeUtf16 (c :: cs) = utf16 c ++ encodeUtf16 cs := flatMap_cons

def isHighSurrogate (u : UInt16) : Bool := 0xD800 ≤ u && u ≤ 0xDBFF

def isLowSurrogate (u : UInt16) : Bool := 0xDC00 ≤ u && u ≤ 0xDFFF

def ofSurrogates (high low : UInt16) : Char :=
  .ofNat (0x10000 + (high.toNat - 0xD800) * 1024 + (low.toNat - 0xDC00))

def ofUnit (u : UInt16) : Char :=
  if isHighSurrogate u || isLowSurrogate u then replacementChar else .ofNat u.toNat

def scalars : JsString → List Char
  | [] => []
  | [u] => [ofUnit u]
  | u :: l :: rest =>
    if isHighSurrogate u && isLowSurrogate l then ofSurrogates u l :: scalars rest
    else ofUnit u :: scalars (l :: rest)

def encodeText (s : JsString) : Bytes := encodeUtf8 (scalars s)

def decodeText (bytes : Bytes) : JsString := encodeUtf16 (decodeUtf8 bytes)

section

variable {u : UInt16} {rest : JsString}

lemma isHighSurrogate_iff : isHighSurrogate u ↔ 0xD800 ≤ u.toNat ∧ u.toNat ≤ 0xDBFF := by
  simp [isHighSurrogate, UInt16.le_iff_toNat_le]

lemma isLowSurrogate_iff : isLowSurrogate u ↔ 0xDC00 ≤ u.toNat ∧ u.toNat ≤ 0xDFFF := by
  simp [isLowSurrogate, UInt16.le_iff_toNat_le]

lemma unit_toNat_of_lt {n : ℕ} (h : n < 0x10000) : (UInt16.ofNat n).toNat = n := by
  exact Nat.mod_eq_of_lt h

lemma scalars_cons_of_not_high (h : isHighSurrogate u = false) :
    scalars (u :: rest) = ofUnit u :: scalars rest := by
  cases rest with
  | nil => rfl
  | cons l rest => simp [scalars, h]

/-- A character is a unit that is no surrogate, or a pair. -/
lemma utf16_cases (c : Char) : (∃ u, utf16 c = [u] ∧ isHighSurrogate u = false ∧ ofUnit u = c) ∨
      ∃ h l, utf16 c = [h, l] ∧ isHighSurrogate h ∧ isLowSurrogate l ∧ ofSurrogates h l = c := by
  have hvalid := char_valid c
  have hchar := Char.ofNat_toNat c
  unfold utf16
  generalize c.toNat = v at hvalid hchar
  dsimp only
  split_ifs with h
  · have hunit := unit_toNat_of_lt h
    have hhigh : isHighSurrogate (.ofNat v) = false := by
      rw [← Bool.not_eq_true, isHighSurrogate_iff]
      omega
    have hlow : isLowSurrogate (.ofNat v) = false := by
      rw [← Bool.not_eq_true, isLowSurrogate_iff]
      omega
    refine .inl ⟨_, rfl, hhigh, ?_⟩
    rw [ofUnit, hhigh, hlow, hunit]
    simpa using hchar
  · have hunit := @unit_toNat_of_lt (0xD800 + (v - 0x10000) / 1024) (by omega)
    have hunit' := @unit_toNat_of_lt (0xDC00 + (v - 0x10000) % 1024) (by omega)
    refine .inr ⟨_, _, rfl, ?_, ?_, ?_⟩
    · rw [isHighSurrogate_iff]
      omega
    · rw [isLowSurrogate_iff]
      omega
    · have hv : 0x10000 + (v - 0x10000) / 1024 * 1024 + (v - 0x10000) % 1024 = v := by omega
      rw [ofSurrogates, hunit, hunit', Nat.add_sub_cancel_left, Nat.add_sub_cancel_left, hv, hchar]

lemma scalars_utf16_append (c : Char) (rest : JsString) :
    scalars (utf16 c ++ rest) = c :: scalars rest := by
  rcases utf16_cases c with ⟨u, hc, hhigh, hunit⟩ | ⟨h, l, hc, hhigh, hlow, hpair⟩
  · rw [hc, singleton_append, scalars_cons_of_not_high hhigh, hunit]
  · rw [hc, cons_append, singleton_append, scalars, hhigh, hlow, hpair]
    rfl

lemma scalars_encodeUtf16_append (cs : List Char) (rest : JsString) :
    scalars (encodeUtf16 cs ++ rest) = cs ++ scalars rest := by
  induction cs with
  | nil => rfl
  | cons c cs ih =>
    rw [encodeUtf16_cons, append_assoc, scalars_utf16_append]
    exact congrArg (c :: ·) ih

@[simp] lemma scalars_encodeUtf16 (cs : List Char) : scalars (encodeUtf16 cs) = cs := by
  have h := scalars_encodeUtf16_append cs []
  rwa [append_nil, show scalars [] = [] from rfl, append_nil] at h

variable {s : JsString}

/-- A pair of surrogates is not cut in front of a unit that is not a low one. -/
lemma scalars_append (h : ∀ u ∈ rest.head?, isLowSurrogate u = false) :
    scalars (s ++ rest) = scalars s ++ scalars rest := by
  fun_induction scalars s with
  | case1 => rfl
  | case2 u =>
    cases rest with
    | nil => rfl
    | cons l rest =>
      have hl := h l rfl
      simp [scalars, hl]
  | case3 u l s hpair ih => simp [scalars, hpair, ih]
  | case4 u l s hpair ih =>
    rw [cons_append] at ih
    simp [scalars, hpair, ih]

lemma encodeText_append (h : ∀ u ∈ rest.head?, isLowSurrogate u = false) :
    encodeText (s ++ rest) = encodeText s ++ encodeText rest := by
  rw [encodeText, scalars_append h, encodeUtf8, flatMap_append]
  rfl

lemma decodeText_encodeText_encodeUtf16 (cs : List Char) :
    decodeText (encodeText (encodeUtf16 cs)) = encodeUtf16 cs := by
  rw [decodeText, encodeText, scalars_encodeUtf16, decodeUtf8_encodeUtf8]

lemma isHighSurrogate_of_ascii (h : u < 0x80) : isHighSurrogate u = false := by
  have hu : u.toNat < 0x80 := UInt16.lt_iff_toNat_lt.mp h
  rw [← Bool.not_eq_true, isHighSurrogate_iff]
  omega

lemma isLowSurrogate_of_ascii (h : u < 0x80) : isLowSurrogate u = false := by
  have hu : u.toNat < 0x80 := UInt16.lt_iff_toNat_lt.mp h
  rw [← Bool.not_eq_true, isLowSurrogate_iff]
  omega

lemma encodeText_ascii_append (h : ∀ u ∈ s, u < 0x80) (rest : JsString) :
    encodeText (s ++ rest) = encodeText s ++ encodeText rest := by
  have hscalars : scalars (s ++ rest) = scalars s ++ scalars rest := by
    induction s with
    | nil => rfl
    | cons u s ih =>
      obtain ⟨hu, hs⟩ := List.forall_mem_cons.mp h
      have hhigh := isHighSurrogate_of_ascii hu
      rw [cons_append, scalars_cons_of_not_high hhigh, scalars_cons_of_not_high hhigh, ih hs]
      rfl
  rw [encodeText, hscalars, encodeUtf8, flatMap_append]
  rfl

/-- A string is encoded apart from the text in ASCII behind it. -/
lemma encodeText_append_ascii {s t : JsString} (ht : ∀ u ∈ t, u < 0x80) (hne : t ≠ []) :
    encodeText (s ++ (t ++ rest)) = encodeText s ++ (encodeText t ++ encodeText rest) := by
  rw [encodeText_append, encodeText_ascii_append ht]
  cases t with
  | nil => exact absurd rfl hne
  | cons u t =>
    rintro _ ⟨⟩
    exact isLowSurrogate_of_ascii (ht u mem_cons_self)

lemma utf16_ofNat_of_lt (h : u < 0x80) : utf16 (.ofNat u.toNat) = [u] := by
  have hu : u.toNat < 0x80 := UInt16.lt_iff_toNat_lt.mp h
  have hchar : (Char.ofNat u.toNat).toNat = u.toNat := char_toNat_of_lt (by omega)
  rw [utf16, hchar, if_pos (by omega), UInt16.ofNat_toNat]

lemma eq_encodeUtf16_of_ascii (h : ∀ u ∈ s, u < 0x80) :
    s = encodeUtf16 (s.map fun u => .ofNat u.toNat) := by
  induction s with
  | nil => rfl
  | cons u s ih =>
    obtain ⟨hu, hs⟩ := List.forall_mem_cons.mp h
    rw [map_cons, encodeUtf16_cons, utf16_ofNat_of_lt hu, ← ih hs]
    rfl

lemma encodeText_ascii (h : ∀ u ∈ s, u < 0x80) : encodeText s = s.map fun u => .ofNat u.toNat := by
  induction s with
  | nil => rfl
  | cons u s ih =>
    obtain ⟨hu, hs⟩ := List.forall_mem_cons.mp h
    have hu' : u.toNat < 0x80 := UInt16.lt_iff_toNat_lt.mp hu
    have hhigh := isHighSurrogate_of_ascii hu
    have hlow := isLowSurrogate_of_ascii hu
    have hchar : (Char.ofNat u.toNat).toNat = u.toNat := char_toNat_of_lt (by omega)
    have hutf8 : utf8 (ofUnit u) = [.ofNat u.toNat] := by
      rw [ofUnit, hhigh, hlow]
      simp [utf8, hchar, hu']
    rw [encodeText, scalars_cons_of_not_high hhigh, encodeUtf8, flatMap_cons, hutf8,
      map_cons, ← ih hs]
    rfl

end

end Core
