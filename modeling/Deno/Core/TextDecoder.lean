import Deno.Core.Utf16

/-!
# Decoders of text

A byte order mark at the start of a text in UTF-8 is dropped. Whatever the bytes are, each of the
characters of ASCII is decoded as itself.
-/

namespace Core

open List Utf8State Char

def latin1Unit (b : UInt8) : UInt16 := .ofNat b.toNat

def latin1 (bytes : Bytes) : JsString := bytes.map latin1Unit

def byteOrderMark : Bytes := [0xEF, 0xBB, 0xBF]

/-- A byte order mark at the start is dropped. -/
def utf8Slice (bytes : Bytes) : JsString :=
  decodeText (if byteOrderMark.isPrefixOf bytes then bytes.drop 3 else bytes)

/-- A decoder of UTF-8 whose treatment of a byte order mark and of bytes that are not UTF-8 is left
open. -/
structure TextDecoder where
  decode : Bytes → JsString
  wellFormed : ∀ bytes, ∃ cs, decode bytes = encodeUtf16 cs
  text : ∀ cs, cs.head? ≠ some '\uFEFF' → decode (encodeUtf8 cs) = encodeUtf16 cs
  ascii : ∀ bytes b, b ≠ 0 → b < 0x80 → (decode bytes).count (latin1Unit b) = bytes.count b

lemma TextDecoder.decode_ascii (decoder : TextDecoder) {s : JsString} (h : ∀ u ∈ s, u < 0x80) :
    decoder.decode (encodeText s) = s := by
  have hhead : (s.map fun u => ofNat u.toNat).head? ≠ some '\uFEFF' := by
    cases s with
    | nil => simp
    | cons u s =>
      have hu : u.toNat < 0x80 := UInt16.lt_iff_toNat_lt.mp (h u mem_cons_self)
      intro hmark
      have hvalue : (ofNat u.toNat).toNat = 0xFEFF := congrArg toNat (Option.some.inj hmark)
      rw [char_toNat_of_lt (by omega)] at hvalue
      omega
  have htext := decoder.text _ hhead
  rw [eq_encodeUtf16_of_ascii h, encodeText, scalars_encodeUtf16, htext,
    ← eq_encodeUtf16_of_ascii h]

variable {cs : List Char}

/-- Only a text that starts with U+FEFF loses it. -/
lemma utf8Slice_encodeUtf8 (h : cs.head? ≠ some '\uFEFF') :
    utf8Slice (encodeUtf8 cs) = encodeUtf16 cs := by
  rw [utf8Slice, if_neg, decodeText, decodeUtf8_encodeUtf8]
  rw [List.isPrefixOf_iff_prefix]
  rintro ⟨rest, hrest⟩
  have hdecode : '\uFEFF' :: decodeUtf8 rest = cs := by
    rw [← decodeUtf8_encodeUtf8 cs, ← hrest]
    exact (decodeUtf8_encodeUtf8_append ['\uFEFF'] rest).symm
  rw [← hdecode] at h
  exact h rfl

/-! ### Characters of ASCII -/

section

variable {b : UInt8}

/-- What is decoded from a longer sequence is not in ASCII. -/
def Utf8State.Wide : Utf8State → Prop
  | .ground => True
  | .pending codePoint left lower _ =>
    left ≠ 0 ∧ 0x80 ≤ lower.toNat ∧ 0x80 ≤ (codePoint * 64 + (lower.toNat - 0x80)) * 64 ^ (left - 1)

instance (s : Utf8State) : Decidable s.Wide :=
  match s with
  | .ground => isTrue trivial
  | .pending _ _ _ _ => inferInstanceAs (Decidable (_ ∧ _ ∧ _))

lemma ofNat_ne_ascii (hb : b ≠ 0) (hlt : b < 0x80) {n : ℕ} (hn : 0x80 ≤ n) :
    ofNat n ≠ ofNat b.toNat := by
  have hb' : b.toNat ≠ 0 := fun h => hb (UInt8.toNat_inj.mp h)
  have hlt' : b.toNat < 0x80 := UInt8.lt_iff_toNat_lt.mp hlt
  intro h
  have hnat := congrArg toNat h
  rw [char_toNat_of_lt (show b.toNat < 0xD800 by omega)] at hnat
  by_cases hvalid : n.isValidChar
  · rw [ofNat, dif_pos hvalid] at hnat
    have hn : n = b.toNat := hnat
    omega
  · rw [ofNat, dif_neg hvalid] at hnat
    exact hb' hnat.symm

lemma count_replacementChar (hb : b ≠ 0) (hlt : b < 0x80) (cs : List Char) :
    (replacementChar :: cs).count (ofNat b.toNat) = cs.count (ofNat b.toNat) :=
  count_cons_of_ne (ofNat_ne_ascii hb hlt (by decide : 0x80 ≤ 0xFFFD))

lemma wide_start : ∀ c, (start c).1.Wide := forall_byte (by decide +kernel)

lemma count_start (hb : b ≠ 0) (hlt : b < 0x80) (c : UInt8) :
    (start c).2.count (ofNat b.toNat) = [c].count b := by
  have hlt' : b.toNat < 0x80 := UInt8.lt_iff_toNat_lt.mp hlt
  by_cases hc : c < 0x80
  · have hc' : c.toNat < 0x80 := UInt8.lt_iff_toNat_lt.mp hc
    rw [start, if_pos hc]
    by_cases heq : c = b
    · subst heq
      simp
    · have hne : ofNat c.toNat ≠ ofNat b.toNat := by
        intro h
        have hnat := congrArg toNat h
        rw [char_toNat_of_lt (by omega), char_toNat_of_lt (by omega)] at hnat
        exact heq (UInt8.toNat_inj.mp hnat)
      simp [hne, heq]
  · have hne : c ≠ b := by
      rintro rfl
      exact hc hlt
    have hout : (start c).2 = [] ∨ (start c).2 = [replacementChar] := by
      rw [start]
      split_ifs <;> simp
    rcases hout with hout | hout
    · simp [hout, hne]
    · rw [hout, count_replacementChar hb hlt]
      simp [hne]

lemma count_next {s : Utf8State} (h : s.Wide) (hb : b ≠ 0) (hlt : b < 0x80) (c : UInt8) :
    (s.next c).1.Wide ∧ (s.next c).2.count (ofNat b.toNat) = [c].count b := by
  cases s with
  | ground => exact ⟨wide_start c, count_start hb hlt c⟩
  | pending codePoint left lower upper =>
    obtain ⟨hleft, hlower, hwide⟩ := h
    have hrange' (hrange : lower ≤ c ∧ c ≤ upper) : lower.toNat ≤ c.toNat ∧ c ≠ b := by
      have hc : lower.toNat ≤ c.toNat := UInt8.le_iff_toNat_le.mp hrange.1
      refine ⟨hc, ?_⟩
      rintro rfl
      have hlt' : c.toNat < 0x80 := UInt8.lt_iff_toNat_lt.mp hlt
      omega
    simp only [Utf8State.next]
    split_ifs with hrange hlast
    · obtain ⟨hc, hne⟩ := hrange' hrange
      subst hlast
      refine ⟨trivial, ?_⟩
      rw [count_cons_of_ne (ofNat_ne_ascii hb hlt (by omega))]
      simp [hne]
    · obtain ⟨hc, hne⟩ := hrange' hrange
      refine ⟨⟨by omega, Nat.le_refl _, ?_⟩, by simp [hne]⟩
      obtain ⟨k, rfl⟩ : ∃ k, left = k + 2 := ⟨left - 2, by omega⟩
      calc 0x80 ≤ (codePoint * 64 + (lower.toNat - 0x80)) * 64 ^ (k + 1) := hwide
        _ ≤ (codePoint * 64 + (c.toNat - 0x80)) * 64 ^ (k + 1) :=
          Nat.mul_le_mul_right _ (by omega)
        _ = _ := by
          rw [Nat.pow_succ, Nat.mul_comm (64 ^ k) 64, ← Nat.mul_assoc]
          simp
    · exact ⟨wide_start c, by rw [count_replacementChar hb hlt, count_start hb hlt]⟩

lemma count_run {s : Utf8State} (h : s.Wide) (hb : b ≠ 0) (hlt : b < 0x80) (bytes : Bytes) :
    (s.run bytes).2.count (ofNat b.toNat) = bytes.count b := by
  induction bytes generalizing s with
  | nil => rfl
  | cons c bytes ih =>
    obtain ⟨hwide, hcount⟩ := count_next h hb hlt c
    rw [run_cons, count_append, hcount, ih hwide, ← count_append]
    rfl

lemma count_decodeUtf8 (hb : b ≠ 0) (hlt : b < 0x80) (bytes : Bytes) :
    (decodeUtf8 bytes).count (ofNat b.toNat) = bytes.count b := by
  have hrun := count_run (s := .ground) trivial hb hlt bytes
  have hfinish : ((ground.run bytes).1.finish).count (ofNat b.toNat) = 0 := by
    cases (ground.run bytes).1 with
    | ground => rfl
    | pending => exact count_replacementChar hb hlt []
  rw [decodeUtf8, count_append, hrun, hfinish, Nat.add_zero]

section

variable (hlt : b < 0x80)

include hlt

lemma mem_utf8 (c : Char) : b ∈ utf8 c ↔ c = ofNat b.toNat := by
  have hlt' : b.toNat < 0x80 := UInt8.lt_iff_toNat_lt.mp hlt
  have hne : ∀ n, 0x80 ≤ n → n < 256 → b ≠ .ofNat n := by
    rintro n hn hn' rfl
    rw [toNat_ofNat_of_lt hn'] at hlt'
    omega
  have hvalid := char_valid c
  constructor
  · intro h
    rw [← ofNat_toNat c]
    unfold utf8 at h
    dsimp only at h
    split_ifs at h with h₁ h₂ h₃
    · rw [mem_singleton] at h
      rw [h, toNat_ofNat_of_lt (by omega)]
    all_goals
      simp only [mem_cons, not_mem_nil, or_false] at h
      exfalso
    · rcases h with h | h <;> exact hne _ (by omega) (by omega) h
    · rcases h with h | h | h <;> exact hne _ (by omega) (by omega) h
    · rcases h with h | h | h | h <;> exact hne _ (by omega) (by omega) h
  · rintro rfl
    have hchar : (ofNat b.toNat).toNat = b.toNat := char_toNat_of_lt (by omega)
    rw [utf8, hchar, if_pos hlt', UInt8.ofNat_toNat, mem_singleton]

lemma mem_encodeUtf8 : b ∈ encodeUtf8 cs ↔ ofNat b.toNat ∈ cs := by
  rw [encodeUtf8, mem_flatMap]
  simp only [mem_utf8 hlt]
  constructor
  · rintro ⟨c, hc, rfl⟩
    exact hc
  · intro h
    exact ⟨_, h, rfl⟩

lemma count_utf16 (c : Char) : (utf16 c).count (latin1Unit b) = [c].count (ofNat b.toNat) := by
  have hlt' : b.toNat < 0x80 := UInt8.lt_iff_toNat_lt.mp hlt
  have hvalid := char_valid c
  have hb : (latin1Unit b).toNat = b.toNat := unit_toNat_of_lt (by omega)
  by_cases hc : c = ofNat b.toNat
  · have hnat : c.toNat = b.toNat := by
      rw [hc, char_toNat_of_lt (by omega)]
    have hunits : utf16 c = [latin1Unit b] := by
      rw [utf16, if_pos (by omega), hnat]
      rfl
    rw [hunits, hc]
    simp
  · have hnat : c.toNat ≠ b.toNat := by
      intro h
      rw [← h, ofNat_toNat] at hc
      exact hc rfl
    rw [count_eq_zero_of_not_mem, count_eq_zero_of_not_mem]
    · simpa using Ne.symm hc
    · unfold utf16
      dsimp only
      split_ifs with hbasic
      · rw [mem_singleton]
        intro h
        rw [← UInt16.toNat_inj, hb, unit_toNat_of_lt hbasic] at h
        exact hnat h.symm
      · rw [mem_cons, mem_singleton]
        rintro (h | h) <;>
          · rw [← UInt16.toNat_inj, unit_toNat_of_lt (by omega)] at h
            omega

lemma count_encodeUtf16 (cs : List Char) :
    (encodeUtf16 cs).count (latin1Unit b) = cs.count (ofNat b.toNat) := by
  induction cs with
  | nil => rfl
  | cons c cs ih =>
    rw [encodeUtf16_cons, count_append, count_utf16 hlt, ih, ← count_append]
    rfl

lemma mem_encodeUtf16 : latin1Unit b ∈ encodeUtf16 cs ↔ ofNat b.toNat ∈ cs := by
  rw [← count_pos_iff, count_encodeUtf16 hlt, count_pos_iff]

/-- The characters of ASCII of a well-formed string are bytes of it. -/
lemma mem_encodeText_encodeUtf16 :
    b ∈ encodeText (encodeUtf16 cs) ↔ latin1Unit b ∈ encodeUtf16 cs := by
  rw [encodeText, scalars_encodeUtf16, mem_encodeUtf8 hlt, mem_encodeUtf16 hlt]

end

lemma count_utf8Slice (hb : b ≠ 0) (hlt : b < 0x80) (bytes : Bytes) :
    (utf8Slice bytes).count (latin1Unit b) = bytes.count b := by
  rw [utf8Slice, decodeText, count_encodeUtf16 hlt, count_decodeUtf8 hb hlt]
  split_ifs with hmark
  · obtain ⟨rest, rfl⟩ := List.isPrefixOf_iff_prefix.mp hmark
    have hnone : byteOrderMark.count b = 0 := by
      rw [count_eq_zero]
      intro hmem
      have hall : ∀ c ∈ byteOrderMark, ¬c < 0x80 := List.all_iff_forall_prop.mp (by decide)
      exact hall b hmem hlt
    rw [count_append, hnone, Nat.zero_add]
    rfl
  · rfl

end

/-- The decoder that drops a byte order mark. -/
def utf8Decoder : TextDecoder where
  decode := utf8Slice
  wellFormed := fun _ => ⟨_, rfl⟩
  text := fun _ => utf8Slice_encodeUtf8
  ascii := fun bytes _ hb hlt => count_utf8Slice hb hlt bytes

end Core
