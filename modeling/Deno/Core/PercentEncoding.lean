import Deno.Core.Utf16

/-!
# Percent encoding

An octet is written as a percent sign and two hexadecimal digits. `decodeURIComponent` reads the
octets of a character together.
-/

namespace Core

open List

def hexDigit (n : ℕ) : UInt16 := .ofNat (if n < 10 then 0x30 + n else 0x41 + (n - 10))

def hexValue (u : UInt16) : Option ℕ :=
  if 0x30 ≤ u ∧ u ≤ 0x39 then some (u.toNat - 0x30)
  else if 0x41 ≤ u ∧ u ≤ 0x46 then some (u.toNat - 0x41 + 10)
  else if 0x61 ≤ u ∧ u ≤ 0x66 then some (u.toNat - 0x61 + 10)
  else none

def percentOctet (b : UInt8) : JsString := [0x25, hexDigit (b.toNat / 16), hexDigit (b.toNat % 16)]

def percentEncode (bytes : Bytes) : JsString := bytes.flatMap percentOctet

def parseOctet : JsString → Option (UInt8 × JsString)
  | percent :: high :: low :: rest =>
    if percent = 0x25 then do
      let high ← hexValue high
      let low ← hexValue low
      return (.ofNat (high * 16 + low), rest)
    else none
  | _ => none

def parseOctets : ℕ → JsString → Option (Bytes × JsString)
  | 0, s => some ([], s)
  | n + 1, s => do
    let (b, s) ← parseOctet s
    let (bytes, s) ← parseOctets n s
    return (b :: bytes, s)

def followingOctets (b : UInt8) : Option ℕ :=
  if b < 0x80 then some 0
  else if b < 0xC0 then none
  else if b < 0xE0 then some 1
  else if b < 0xF0 then some 2
  else if b < 0xF8 then some 3
  else none

def decodeOctets (octets : Bytes) : Option Char :=
  match decodeUtf8 octets with
  | [c] => if utf8 c = octets then some c else none
  | _ => none

def parseCharacter (s : JsString) : Option (Char × JsString) := do
  let (b, s) ← parseOctet s
  let n ← followingOctets b
  let (octets, s) ← parseOctets n s
  let c ← decodeOctets (b :: octets)
  return (c, s)

/-! ### Reading octets -/

section

variable {s rest : JsString} {n : ℕ}

lemma length_of_parseOctet {b : UInt8} (h : parseOctet s = some (b, rest)) :
    rest.length < s.length := by
  match s with
  | [] | [_] | [_, _] => cases h
  | percent :: high :: low :: s =>
    simp only [parseOctet] at h
    split_ifs at h
    simp only [bind, Option.bind_eq_some_iff, pure, Option.some.injEq, Prod.mk.injEq] at h
    obtain ⟨high, -, low, -, -, rfl⟩ := h
    simp only [length_cons]
    omega

lemma length_of_parseOctets {bytes : Bytes} (h : parseOctets n s = some (bytes, rest)) :
    rest.length ≤ s.length := by
  induction n generalizing s bytes with
  | zero =>
    simp only [parseOctets, Option.some.injEq, Prod.mk.injEq] at h
    rw [h.2]
  | succ n ih =>
    simp only [parseOctets, bind, Option.bind_eq_some_iff, pure, Option.some.injEq,
      Prod.mk.injEq] at h
    obtain ⟨⟨b, s'⟩, hb, ⟨bytes', rest'⟩, hbytes, -, rfl⟩ := h
    exact Nat.le_trans (ih hbytes) (Nat.le_of_lt (length_of_parseOctet hb))

lemma length_of_parseCharacter {c : Char} (h : parseCharacter s = some (c, rest)) :
    rest.length < s.length := by
  simp only [parseCharacter, bind, Option.bind_eq_some_iff, pure, Option.some.injEq,
    Prod.mk.injEq] at h
  obtain ⟨⟨b, s'⟩, hb, n, -, ⟨octets, rest'⟩, hoctets, c', -, -, rfl⟩ := h
  exact Nat.lt_of_le_of_lt (length_of_parseOctets hoctets) (length_of_parseOctet hb)

end

/-- `decodeURIComponent`; nothing if it throws. -/
def decodeURIComponent (s : JsString) : Option JsString :=
  match s with
  | [] => some []
  | u :: rest =>
    if u = 0x25 then
      match _h : parseCharacter (u :: rest) with
      | some (c, rest') => (utf16 c ++ ·) <$> decodeURIComponent rest'
      | none => none
    else (u :: ·) <$> decodeURIComponent rest
termination_by s.length
decreasing_by
  · exact length_of_parseCharacter _h
  · simp

/-! ### Reading what was encoded -/

section

variable {rest : JsString}

lemma hexValue_hexDigit : ∀ n < 16, hexValue (hexDigit n) = some n := by decide

lemma parseOctet_percentOctet (b : UInt8) (rest : JsString) :
    parseOctet (percentOctet b ++ rest) = some (b, rest) := by
  have hb := b.toNat_lt
  have hvalue : b.toNat / 16 * 16 + b.toNat % 16 = b.toNat := by omega
  have hhigh : hexValue (hexDigit (b.toNat / 16)) = some (b.toNat / 16) :=
    hexValue_hexDigit _ (by omega)
  have hlow : hexValue (hexDigit (b.toNat % 16)) = some (b.toNat % 16) :=
    hexValue_hexDigit _ (by omega)
  simp only [percentOctet, cons_append, nil_append, parseOctet, if_true, hhigh, hlow]
  change some (UInt8.ofNat (b.toNat / 16 * 16 + b.toNat % 16), rest) = some (b, rest)
  rw [hvalue, UInt8.ofNat_toNat]

lemma parseOctets_percentEncode (bytes : Bytes) (rest : JsString) :
    parseOctets bytes.length (percentEncode bytes ++ rest) = some (bytes, rest) := by
  induction bytes with
  | nil => rfl
  | cons b bytes ih =>
    rw [percentEncode, flatMap_cons, append_assoc, length_cons, parseOctets,
      parseOctet_percentOctet]
    change (do let r ← parseOctets bytes.length (percentEncode bytes ++ rest); _) = _
    rw [ih]
    rfl

variable (c : Char)

lemma decodeOctets_utf8 : decodeOctets (utf8 c) = some c := by
  have h : decodeUtf8 (utf8 c) = [c] := by
    rw [decodeUtf8, run_utf8]
    rfl
  simp [decodeOctets, h]

/-- The first byte of a character says how many follow. -/
lemma followingOctets_utf8 :
    ∃ lead more, utf8 c = lead :: more ∧ followingOctets lead = some more.length := by
  have hvalid := char_valid c
  unfold utf8
  have hone : ∀ n < 0x80, followingOctets (.ofNat n) = some 0 := by decide
  have htwo : ∀ n < 32, followingOctets (.ofNat (0xC0 + n)) = some 1 := by decide
  have hthree : ∀ n < 16, followingOctets (.ofNat (0xE0 + n)) = some 2 := by decide
  have hfour : ∀ n < 8, followingOctets (.ofNat (0xF0 + n)) = some 3 := by decide
  dsimp only
  split_ifs with h₁ h₂ h₃
  · exact ⟨_, _, rfl, hone _ h₁⟩
  · exact ⟨_, _, rfl, htwo _ (by omega)⟩
  · exact ⟨_, _, rfl, hthree _ (by omega)⟩
  · exact ⟨_, _, rfl, hfour _ (by omega)⟩

lemma parseCharacter_percentEncode (rest : JsString) :
    parseCharacter (percentEncode (utf8 c) ++ rest) = some (c, rest) := by
  obtain ⟨lead, more, hutf8, hmore⟩ := followingOctets_utf8 c
  have hc := decodeOctets_utf8 c
  rw [hutf8] at hc ⊢
  rw [percentEncode, flatMap_cons, append_assoc, parseCharacter, parseOctet_percentOctet]
  change (do let n ← followingOctets lead; _) = _
  rw [hmore]
  change (do let r ← parseOctets more.length (percentEncode more ++ rest); _) = _
  rw [parseOctets_percentEncode]
  change (do let c ← decodeOctets (lead :: more); _) = _
  rw [hc]
  rfl

lemma decodeURIComponent_percentEncode (rest : JsString) :
    decodeURIComponent (percentEncode (utf8 c) ++ rest) =
      (utf16 c ++ ·) <$> decodeURIComponent rest := by
  obtain ⟨s, hs⟩ : ∃ s, percentEncode (utf8 c) ++ rest = 0x25 :: s := by
    obtain ⟨lead, more, hutf8, -⟩ := followingOctets_utf8 c
    rw [hutf8]
    exact ⟨_, rfl⟩
  have hparse := parseCharacter_percentEncode c rest
  rw [hs] at hparse ⊢
  rw [decodeURIComponent, if_pos rfl]
  split
  · rename_i c' rest' h
    rw [hparse] at h
    cases h
    rfl
  · rename_i h
    rw [hparse] at h
    cases h

end

end Core
