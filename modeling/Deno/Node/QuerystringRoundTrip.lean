import Deno.Node.Querystring

/-!
# Query strings are read back

A well-formed string is escaped character by character, and its escapes are read. The loop of
`parse` sees only units that are not special within a key or a value.
-/

namespace Deno.Querystring

open Core List JsObject

/-! ### What a well-formed string is escaped to -/

/-- A unit that stands for itself, or an octet. -/
inductive Piece where
  | plain (u : UInt16) (h : noEscape u)
  | octet (b : UInt8)

def Piece.render : Piece → JsString
  | .plain u _ => [u]
  | .octet b => percentOctet b

def pieces (c : Char) : List Piece :=
  if h : c.toNat < 0x80 ∧ noEscape (unit c) then [.plain (unit c) h.2] else (utf8 c).map .octet

def escaped (cs : List Char) : JsString := (cs.flatMap pieces).flatMap Piece.render

lemma escaped_cons (c : Char) (cs : List Char) :
    escaped (c :: cs) = (pieces c).flatMap Piece.render ++ escaped cs := by
  simp [escaped]

lemma render_pieces (c : Char) : (pieces c).flatMap Piece.render =
      if c.toNat < 0x80 ∧ noEscape (unit c) then [unit c] else percentEncode (utf8 c) := by
  unfold pieces
  split_ifs
  · rfl
  · rw [flatMap_map]
    rfl

lemma noEscape_ne_percent {u : UInt16} (h : noEscape u) : u ≠ 0x25 := by
  rintro rfl
  cases h

variable {c : Char}

lemma utf16_of_ascii (h : c.toNat < 0x80) : utf16 c = [unit c] := by
  rw [utf16, if_pos (by omega)]
  rfl

lemma decodeURIComponent_escaped (cs : List Char) :
    decodeURIComponent (escaped cs) = some (encodeUtf16 cs) := by
  induction cs with
  | nil => simp [escaped, encodeUtf16, decodeURIComponent]
  | cons c cs ih =>
    rw [escaped_cons, render_pieces, encodeUtf16_cons]
    split_ifs with h
    · rw [singleton_append, decodeURIComponent, if_neg (noEscape_ne_percent h.2), ih,
        utf16_of_ascii h.1]
      rfl
    · rw [decodeURIComponent_percentEncode, ih]
      rfl

lemma escaped_of_notMem {cs : List Char} (h : 0x25 ∉ escaped cs) : escaped cs = encodeUtf16 cs := by
  induction cs with
  | nil => rfl
  | cons c cs ih =>
    rw [escaped_cons, mem_append, not_or] at h
    rw [escaped_cons, ih h.2, encodeUtf16_cons]
    have hc := h.1
    rw [render_pieces] at hc ⊢
    split_ifs at hc ⊢ with hplain
    · rw [utf16_of_ascii hplain.1]
    · obtain ⟨lead, more, hutf8, -⟩ := followingOctets_utf8 c
      rw [hutf8] at hc
      exact absurd mem_cons_self hc

/-! ### Escaping a well-formed string -/

lemma or_low (i a : ℕ) {b : ℕ} (h : b < 2 ^ i) : 2 ^ i * a ||| b = 2 ^ i * a + b :=
  (Nat.two_pow_add_eq_or_of_lt h a).symm

lemma hexTable_continuation (n : ℕ) :
    hexTable (0x80 ||| n &&& 0x3F) = percentOctet (.ofNat (0x80 + n % 64)) := by
  have hand : n &&& 0x3F = n % 64 := Nat.and_two_pow_sub_one_eq_mod n 6
  have hor := or_low 6 2 (Nat.mod_lt n (by decide : 0 < 2 ^ 6))
  rw [hand]
  exact congrArg (fun m => percentOctet (.ofNat m)) hor

lemma encodeUnit_eq (h₁ : ¬c.toNat < 0x80) (h₂ : c.toNat < 0x10000) :
    encodeUnit c.toNat = percentEncode (utf8 c) := by
  unfold encodeUnit utf8 percentEncode
  generalize c.toNat = v at h₁ h₂
  dsimp only
  split_ifs with h₃
  · have hlead : 0xC0 ||| v >>> 6 = 0xC0 + v / 64 := by
      rw [Nat.shiftRight_eq_div_pow]
      exact or_low 6 3 (by omega)
    rw [hexTable_continuation, hlead]
    rfl
  · have hlead : 0xE0 ||| v >>> 12 = 0xE0 + v / 4096 := by
      rw [Nat.shiftRight_eq_div_pow]
      exact or_low 5 7 (by omega)
    rw [hexTable_continuation, hexTable_continuation, hlead, Nat.shiftRight_eq_div_pow]
    rfl

lemma encodePair_eq (h : ¬c.toNat < 0x10000) :
    encodePair (UInt16.ofNat (0xD800 + (c.toNat - 0x10000) / 1024)).toNat
        (UInt16.ofNat (0xDC00 + (c.toNat - 0x10000) % 1024)).toNat =
      percentEncode (utf8 c) := by
  have hvalid := char_valid c
  unfold utf8 percentEncode
  generalize c.toNat = v at h hvalid
  rw [unit_toNat_of_lt (by omega), unit_toNat_of_lt (by omega)]
  have hhigh : 0xD800 + (v - 0x10000) / 1024 &&& 0x3FF = (v - 0x10000) / 1024 := by
    rw [show 0x3FF = 2 ^ 10 - 1 from rfl, Nat.and_two_pow_sub_one_eq_mod]
    omega
  have hlow : 0xDC00 + (v - 0x10000) % 1024 &&& 0x3FF = (v - 0x10000) % 1024 := by
    rw [show 0x3FF = 2 ^ 10 - 1 from rfl, Nat.and_two_pow_sub_one_eq_mod]
    omega
  have hpair : 0x10000 + (((v - 0x10000) / 1024) <<< 10 ||| (v - 0x10000) % 1024) = v := by
    have hlt : (v - 0x10000) % 1024 < 2 ^ 10 := Nat.mod_lt _ (by decide)
    rw [Nat.shiftLeft_eq, Nat.mul_comm, or_low 10 _ hlt]
    omega
  have hlead : 0xF0 ||| v >>> 18 = 0xF0 + v / 262144 := by
    rw [Nat.shiftRight_eq_div_pow]
    exact or_low 4 15 (by omega)
  unfold encodePair
  dsimp only
  rw [hhigh, hlow, hpair, hexTable_continuation, hexTable_continuation, hexTable_continuation,
    hlead, Nat.shiftRight_eq_div_pow, Nat.shiftRight_eq_div_pow, if_neg (by omega),
    if_neg (by omega), if_neg (by omega)]
  rfl

section

variable {str out rest : JsString} {i lastPos : ℕ} {u : UInt16}

lemma encodeLoop_plain (h : str.drop i = u :: rest) (hu : u.toNat < 0x80) (hplain : noEscape u) :
    encodeLoop str i lastPos out = encodeLoop str (i + 1) lastPos out := by
  have hlt := lt_length_of_drop h
  rw [encodeLoop, dif_pos hlt, getElem_position h hlt]
  simp [hu, hplain]

lemma encodeLoop_ascii (h : str.drop i = u :: rest) (hu : u.toNat < 0x80) (hplain : ¬noEscape u) :
    encodeLoop str i lastPos out =
      encodeLoop str (i + 1) (i + 1) (out ++ substring str lastPos i ++ hexTable u.toNat) := by
  have hlt := lt_length_of_drop h
  rw [encodeLoop, dif_pos hlt, getElem_position h hlt]
  simp [hu, hplain, Bool.false_eq_true]

lemma encodeLoop_unit (h : str.drop i = u :: rest) (hu : ¬u.toNat < 0x80)
    (hunit : u.toNat < 0xD800 ∨ u.toNat ≥ 0xE000) :
    encodeLoop str i lastPos out =
      encodeLoop str (i + 1) (i + 1) (out ++ substring str lastPos i ++ encodeUnit u.toNat) := by
  have hlt := lt_length_of_drop h
  have hunit' : u.toNat < 0x800 ∨ u.toNat < 0xD800 ∨ u.toNat ≥ 0xE000 := .inr hunit
  rw [encodeLoop, dif_pos hlt, getElem_position h hlt]
  simp [hu, hunit']

lemma encodeLoop_pair {u₂ : UInt16} (h : str.drop i = u :: u₂ :: rest)
    (hu : 0xD800 ≤ u.toNat ∧ u.toNat < 0xE000) :
    encodeLoop str i lastPos out = encodeLoop str (i + 2) (i + 2)
        (out ++ substring str lastPos i ++ encodePair u.toNat u₂.toNat) := by
  have hlt := lt_length_of_drop h
  have h₂ := drop_succ h
  have hlt₂ := lt_length_of_drop h₂
  have hu' : ¬u.toNat < 0x80 := by omega
  have hunit : ¬(u.toNat < 0x800 ∨ u.toNat < 0xD800 ∨ u.toNat ≥ 0xE000) := by omega
  rw [encodeLoop, dif_pos hlt, getElem_position h hlt]
  simp [hu', hunit, dif_pos hlt₂, getElem_position h₂ hlt₂]

lemma encodeLoop_char (h : str.drop i = utf16 c ++ rest) : encodeLoop str i lastPos out =
      if c.toNat < 0x80 ∧ noEscape (unit c) then encodeLoop str (i + (utf16 c).length) lastPos out
      else encodeLoop str (i + (utf16 c).length) (i + (utf16 c).length)
          (out ++ substring str lastPos i ++ percentEncode (utf8 c)) := by
  have hvalid := char_valid c
  by_cases hbasic : c.toNat < 0x10000
  · have hunits : utf16 c = [unit c] := if_pos hbasic
    have hunit : (unit c).toNat = c.toNat := unit_toNat_of_lt hbasic
    rw [hunits] at h
    rw [hunits, length_singleton]
    by_cases hascii : c.toNat < 0x80
    · have hoctet : hexTable c.toNat = percentEncode (utf8 c) := by
        simp [utf8, hascii, percentEncode, hexTable]
      split_ifs with hplain
      · exact encodeLoop_plain h (hunit ▸ hascii) hplain.2
      · rw [encodeLoop_ascii h (hunit ▸ hascii) (fun hn => hplain ⟨hascii, hn⟩), hunit, hoctet]
    · rw [if_neg (fun hn => hascii hn.1), encodeLoop_unit h (by omega) (by omega), hunit,
        encodeUnit_eq hascii hbasic]
  · have hunits : utf16 c = [.ofNat (0xD800 + (c.toNat - 0x10000) / 1024),
        .ofNat (0xDC00 + (c.toNat - 0x10000) % 1024)] := if_neg hbasic
    have hhigh := @unit_toNat_of_lt (0xD800 + (c.toNat - 0x10000) / 1024) (by omega)
    rw [hunits] at h
    rw [if_neg (by omega), encodeLoop_pair h (by omega), encodePair_eq hbasic, hunits]
    rfl

lemma encodeLoop_encodeUtf16 (cs : List Char) (h : str.drop i = encodeUtf16 cs)
    (hle : lastPos ≤ i) (hi : i ≤ str.length) (hout : lastPos = 0 → out = []) :
    ∃ lastPos' out', encodeLoop str i lastPos out = .ok (lastPos', out') ∧
      (lastPos' = 0 → out' = []) ∧ lastPos' ≤ str.length ∧
      out' ++ str.drop lastPos' = out ++ substring str lastPos i ++ escaped cs := by
  induction cs generalizing i lastPos out with
  | nil =>
    have hend : i = str.length := by
      have hlength := congrArg List.length h
      rw [length_drop] at hlength
      simp only [encodeUtf16, flatMap_nil, length_nil] at hlength
      omega
    subst hend
    refine ⟨lastPos, out, ?_, hout, hle, ?_⟩
    · rw [encodeLoop, dif_neg (Nat.lt_irrefl _)]
    · rw [substring]
      simp [escaped]
  | cons c cs ih =>
    rw [encodeUtf16_cons] at h
    have hrest := drop_add_length h
    have hi' : i + (utf16 c).length ≤ str.length := by
      have hlength := congrArg List.length h
      rw [length_drop, length_append] at hlength
      omega
    rw [encodeLoop_char h, escaped_cons, render_pieces]
    split_ifs with hplain
    · obtain ⟨lastPos', out', hloop, hzero, hle', heq⟩ := ih hrest (by omega) hi' hout
      refine ⟨lastPos', out', hloop, hzero, hle', ?_⟩
      rw [heq, substring_append h hle hi, utf16_of_ascii hplain.1]
      simp
    · have hpos : i + (utf16 c).length = 0 →
          out ++ substring str lastPos i ++ percentEncode (utf8 c) = [] := by
        have hne : (utf16 c).length ≠ 0 := by
          unfold utf16
          dsimp only
          split_ifs <;> simp
        omega
      obtain ⟨lastPos', out', hloop, hzero, hle', heq⟩ := ih hrest (Nat.le_refl _) hi' hpos
      refine ⟨lastPos', out', hloop, hzero, hle', ?_⟩
      rw [heq, substring_self]
      simp

lemma encodeStr_encodeUtf16 (cs : List Char) : encodeStr (encodeUtf16 cs) = .ok (escaped cs) := by
  by_cases hnil : encodeUtf16 cs = []
  · have hcs := scalars_encodeUtf16 cs
    rw [hnil] at hcs
    rw [← hcs]
    rfl
  · obtain ⟨lastPos, out, hloop, hzero, hle, heq⟩ :=
      @encodeLoop_encodeUtf16 (encodeUtf16 cs) [] 0 0 cs rfl (Nat.le_refl _) (Nat.zero_le _)
        (fun _ => rfl)
    rw [substring_self, append_nil, nil_append] at heq
    rw [encodeStr, if_neg hnil, hloop]
    change (if lastPos = 0 then Except.ok (encodeUtf16 cs) else
      .ok (if lastPos < (encodeUtf16 cs).length then out ++ (encodeUtf16 cs).drop lastPos
        else out)) = _
    split_ifs with hfirst hlast
    · rw [hfirst, hzero hfirst, nil_append, drop_zero] at heq
      rw [heq]
    · rw [heq]
    · rw [drop_eq_nil_of_le (Nat.le_of_not_gt hlast), append_nil] at heq
      rw [heq]

end

/-! ### Writing an object -/

/-- The strings that have no surrogates outside of pairs. -/
def WellFormed (s : JsString) : Prop := ∃ cs, s = encodeUtf16 cs

def escape (s : JsString) : JsString := escaped (scalars s)

lemma convert_eq {s : JsString} (h : WellFormed s) : convert none s = .ok (escape s) := by
  obtain ⟨cs, rfl⟩ := h
  rw [convert, escape, scalars_encodeUtf16]
  split_ifs with hnil
  · have hcs := scalars_encodeUtf16 cs
    rw [hnil] at hcs
    rw [← hcs]
    rfl
  · exact encodeStr_encodeUtf16 cs

abbrev Pair := JsString × JsString

def pairsOf (entries : List (JsString × QueryValue)) : List Pair :=
  entries.flatMap fun e => e.2.toList.map fun v => (e.1, v)

lemma pairsOf_cons (k : JsString) (v : QueryValue) (entries : List (JsString × QueryValue)) :
    pairsOf ((k, v) :: entries) = (v.toList.map fun v => (k, v)) ++ pairsOf entries :=
  flatMap_cons

def field (pair : Pair) : JsString := escape pair.1 ++ js "=" ++ escape pair.2

def addField (fields piece : JsString) : JsString :=
  (if fields ≠ [] then fields ++ js "&" else fields) ++ piece

lemma field_ne_nil (pair : Pair) : field pair ≠ [] := by simp [field, js]

lemma addField_ne_nil (fields : JsString) (pair : Pair) : addField fields (field pair) ≠ [] := by
  simp [addField, field_ne_nil]

section

variable {fields : JsString}

/-- Behind other fields the first value is like the others. -/
lemma stringifyMore_eq (ks : JsString) (vs : List JsString) (hfields : fields ≠ []) :
    stringifyMore none (js "&") ks vs fields = stringifyValues none (js "&") ks vs fields := by
  cases vs with
  | nil => rfl
  | cons v vs => rw [stringifyMore, stringifyValues, if_pos hfields]

lemma stringifyValues_eq (k : JsString) (vs : List JsString) (hvs : ∀ v ∈ vs, WellFormed v) :
    stringifyValues none (js "&") (escape k ++ js "=") vs fields =
      .ok ((vs.map fun v => field (k, v)).foldl addField fields) := by
  induction vs generalizing fields with
  | nil => rfl
  | cons v vs ih =>
    obtain ⟨hv, hvs⟩ := List.forall_mem_cons.mp hvs
    have hadd : (if fields ≠ [] then fields ++ js "&" else fields) ++ (escape k ++ js "=") ++
        escape v = addField fields (field (k, v)) := by
      simp [addField, field]
    rw [stringifyValues, convert_eq hv]
    change stringifyMore none (js "&") (escape k ++ js "=") vs _ = _
    rw [hadd, stringifyMore_eq _ vs (addField_ne_nil fields (k, v)), ih hvs]
    rfl

lemma stringifyEntries_eq (entries : List (JsString × QueryValue))
    (hkeys : ∀ e ∈ entries, WellFormed e.1)
    (hvalues : ∀ e ∈ entries, ∀ v ∈ e.2.toList, WellFormed v) :
    stringifyEntries none (js "&") (js "=") entries fields =
      .ok (((pairsOf entries).map field).foldl addField fields) := by
  induction entries generalizing fields with
  | nil => rfl
  | cons e entries ih =>
    obtain ⟨k, v⟩ := e
    obtain ⟨hk, hkeys⟩ := List.forall_mem_cons.mp hkeys
    obtain ⟨hv, hvalues⟩ := List.forall_mem_cons.mp hvalues
    rw [stringifyEntries, convert_eq hk]
    change (do
      let fields ← stringifyValues none (js "&") (escape k ++ js "=") v.toList fields
      stringifyEntries none (js "&") (js "=") entries fields) = _
    rw [stringifyValues_eq k v.toList hv]
    change stringifyEntries none (js "&") (js "=") entries _ = _
    rw [ih hkeys hvalues, pairsOf_cons, map_append, foldl_append, map_map]
    rfl

lemma foldl_addField (pairs : List Pair) (hfields : fields ≠ []) :
    (pairs.map field).foldl addField fields =
      fields ++ pairs.flatMap fun pair => unit '&' :: field pair := by
  induction pairs generalizing fields with
  | nil => simp
  | cons pair pairs ih =>
    rw [map_cons, foldl_cons, ih (addField_ne_nil fields pair), addField, if_pos hfields]
    simp [js]

end

/-! ### Reading a pair -/

/-- The options of `parse` without arguments. -/
def defaultOptions : ParseOptions where
  sepCodes := js "&"
  eqCodes := js "="
  decode := qsUnescape
  customDecode := false
  maxKeys := 1000

/-- A unit that is none of the separators, and not read as a space. -/
def Ordinary (u : UInt16) : Prop := u ≠ unit '&' ∧ u ≠ unit '=' ∧ u ≠ unit '+'

/-- Units within a key or a value change at most what is known about escapes. -/
structure Reads (s s' : ParseState) : Prop where
  obj : s'.obj = s.obj
  pairs : s'.pairs = s.pairs
  lastPos : s'.lastPos = s.lastPos
  sepIdx : s'.sepIdx = 0
  eqIdx : s'.eqIdx = s.eqIdx
  key : s'.key = s.key
  value : s'.value = s.value
  keyEncoded : s.keyEncoded → s'.keyEncoded
  valEncoded : s.valEncoded → s'.valEncoded

section

variable {s s' s'' : ParseState} {str rest : JsString} {i : ℕ} {u : UInt16}

lemma Reads.refl (h : s.sepIdx = 0) : Reads s s := ⟨rfl, rfl, rfl, h, rfl, rfl, rfl, id, id⟩

lemma Reads.trans (h : Reads s s') (h' : Reads s' s'') : Reads s s'' where
  obj := h'.obj.trans h.obj
  pairs := h'.pairs.trans h.pairs
  lastPos := h'.lastPos.trans h.lastPos
  sepIdx := h'.sepIdx
  eqIdx := h'.eqIdx.trans h.eqIdx
  key := h'.key.trans h.key
  value := h'.value.trans h.value
  keyEncoded := h'.keyEncoded ∘ h.keyEncoded
  valEncoded := h'.valEncoded ∘ h.valEncoded

lemma valueStep_reads (hsep : s.sepIdx = 0) (hu : u ≠ unit '+') :
    Reads s (valueStep defaultOptions str i u s) := by
  unfold valueStep
  rw [if_neg hu]
  split_ifs with hval hpercent hcheck hhex
  · exact .refl hsep
  · exact ⟨rfl, rfl, rfl, hsep, rfl, rfl, rfl, id, id⟩
  · exact ⟨rfl, rfl, rfl, hsep, rfl, rfl, rfl, id, fun h => absurd h hval⟩
  · exact ⟨rfl, rfl, rfl, hsep, rfl, rfl, rfl, id, id⟩
  · exact .refl hsep

lemma keyStep_reads (hsep : s.sepIdx = 0) (heq : s.eqIdx = 0) (hu : u ≠ unit '+') :
    Reads s (keyStep defaultOptions str i u s) := by
  obtain ⟨obj, pairs, lastPos, sepIdx, eqIdx, key, value, keyEncoded, valEncoded, encodeCheck⟩ := s
  obtain rfl : eqIdx = 0 := heq
  obtain rfl : sepIdx = 0 := hsep
  unfold keyStep
  dsimp only
  split_ifs with hpercent hhex hcheck
  · exact ⟨rfl, rfl, rfl, rfl, rfl, rfl, rfl, id, id⟩
  · refine ⟨rfl, rfl, rfl, rfl, rfl, rfl, rfl, fun h => ?_, id⟩
    obtain rfl : keyEncoded = true := h
    simp at hhex
  · refine Reads.trans ?_ (valueStep_reads rfl hu)
    exact ⟨rfl, rfl, rfl, rfl, rfl, rfl, rfl, id, id⟩
  · exact valueStep_reads rfl hu

def unitStep (str : JsString) (i : ℕ) (u : UInt16) (s : ParseState) : ParseState :=
  if s.eqIdx = 0 then keyStep defaultOptions str i u s else valueStep defaultOptions str i u s

/-- Whether the key or the value that is read is known to have an escape. -/
def ParseState.encoded (s : ParseState) : Bool :=
  if s.eqIdx = 0 then s.keyEncoded else s.valEncoded

lemma Reads.encoded (h : Reads s s') (hs : s.encoded) : s'.encoded := by
  unfold ParseState.encoded at hs ⊢
  rw [h.eqIdx]
  split_ifs at hs ⊢
  · exact h.keyEncoded hs
  · exact h.valEncoded hs

lemma unitStep_reads (hsep : s.sepIdx = 0) (hu : Ordinary u) : Reads s (unitStep str i u s) := by
  unfold unitStep
  split_ifs with heq
  · exact keyStep_reads hsep heq hu.2.2
  · exact valueStep_reads hsep hu.2.2

lemma parseLoop_unit (hsep : s.sepIdx = 0) (heq : s.eqIdx ≤ 1) (hu : Ordinary u) :
    parseLoop defaultOptions str i (u :: rest) s =
      parseLoop defaultOptions str (i + 1) rest (unitStep str i u s) := by
  have hstep : step defaultOptions str i u s = .next (unitStep str i u s) := by
    obtain ⟨obj, pairs, lastPos, sepIdx, eqIdx, key, value, keyEncoded, valEncoded, encodeCheck⟩ :=
      s
    obtain rfl : sepIdx = 0 := hsep
    obtain rfl | rfl : eqIdx = 0 ∨ eqIdx = 1 := by
      have hle : eqIdx ≤ 1 := heq
      omega
    · simp [step, unitStep, defaultOptions, js, Ne.symm hu.1, Ne.symm hu.2.1]
    · simp [step, unitStep, defaultOptions, js, Ne.symm hu.1]
  rw [parseLoop, hstep]

lemma ordinary_of_noEscape (h : noEscape u) : Ordinary u := by
  refine ⟨?_, ?_, ?_⟩ <;> rintro rfl <;> cases h

lemma ordinary_hexDigit : ∀ n < 16, Ordinary (hexDigit n) ∧ hexDigit n ≠ unit '%' := by
  unfold Ordinary
  decide

lemma isHex_hexDigit : ∀ n < 16, isHex (hexDigit n) := by decide

lemma ordinary_percent : Ordinary (unit '%') := by
  unfold Ordinary
  decide

lemma encoded_octet {high low : UInt16} (hhigh : isHex high) (hlow : isHex low)
    (hhigh' : high ≠ unit '+' ∧ high ≠ unit '%') (hlow' : low ≠ unit '+' ∧ low ≠ unit '%') :
    (unitStep str (i + 2) low (unitStep str (i + 1) high (unitStep str i (unit '%') s))).encoded ∨
      s.encoded := by
  by_cases heq : s.eqIdx = 0
  · cases hencoded : s.keyEncoded with
    | true => simp [ParseState.encoded, heq, hencoded]
    | false =>
      simp [unitStep, keyStep, heq, ParseState.encoded, hencoded, hhigh, hlow, hhigh', hlow']
  · cases hencoded : s.valEncoded with
    | true => simp [ParseState.encoded, heq, hencoded]
    | false =>
      have hplus : unit '%' ≠ unit '+' := by decide
      simp [unitStep, valueStep, heq, ParseState.encoded, hencoded, hhigh, hlow, hhigh', hlow',
        hplus]

lemma parseLoop_piece (hsep : s.sepIdx = 0) (heq : s.eqIdx ≤ 1) (piece : Piece) :
    ∃ s', Reads s s' ∧ (unit '%' ∈ piece.render → s'.encoded) ∧
      parseLoop defaultOptions str i (piece.render ++ rest) s =
        parseLoop defaultOptions str (i + piece.render.length) rest s' := by
  cases piece with
  | plain u hu =>
    have hordinary := ordinary_of_noEscape hu
    refine ⟨_, unitStep_reads hsep hordinary, fun hmem => ?_, parseLoop_unit hsep heq hordinary⟩
    exact absurd (List.mem_singleton.mp hmem).symm (noEscape_ne_percent hu)
  | octet b =>
    have hb := b.toNat_lt
    obtain ⟨hhigh, hhigh'⟩ := ordinary_hexDigit (b.toNat / 16) (by omega)
    obtain ⟨hlow, hlow'⟩ := ordinary_hexDigit (b.toNat % 16) (by omega)
    have h₁ := @unitStep_reads s str i (unit '%') hsep ordinary_percent
    have h₂ := @unitStep_reads _ str (i + 1) _ h₁.sepIdx hhigh
    have h₃ := @unitStep_reads _ str (i + 2) _ h₂.sepIdx hlow
    refine ⟨_, (h₁.trans h₂).trans h₃, fun _ => ?_, ?_⟩
    · rcases @encoded_octet s str i _ _ (isHex_hexDigit (b.toNat / 16) (by omega))
        (isHex_hexDigit (b.toNat % 16) (by omega)) ⟨hhigh.2.2, hhigh'⟩ ⟨hlow.2.2, hlow'⟩ with h | h
      · exact h
      · exact ((h₁.trans h₂).trans h₃).encoded h
    · change parseLoop defaultOptions str i (unit '%' :: _ :: _ :: rest) s = _
      rw [parseLoop_unit hsep heq ordinary_percent, parseLoop_unit h₁.sepIdx (h₁.eqIdx ▸ heq) hhigh,
        parseLoop_unit h₂.sepIdx ((h₁.trans h₂).eqIdx ▸ heq) hlow]
      rfl

lemma parseLoop_pieces (hsep : s.sepIdx = 0) (heq : s.eqIdx ≤ 1) (ps : List Piece) :
    ∃ s', Reads s s' ∧ (unit '%' ∈ ps.flatMap Piece.render → s'.encoded) ∧
      parseLoop defaultOptions str i (ps.flatMap Piece.render ++ rest) s =
        parseLoop defaultOptions str (i + (ps.flatMap Piece.render).length) rest s' := by
  induction ps generalizing s i with
  | nil => exact ⟨s, .refl hsep, fun hmem => absurd hmem not_mem_nil, rfl⟩
  | cons piece ps ih =>
    obtain ⟨s₁, hreads, henc, hloop⟩ :=
      @parseLoop_piece s str (ps.flatMap Piece.render ++ rest) i hsep heq piece
    obtain ⟨s₂, hreads', henc', hloop'⟩ :=
      @ih s₁ (i + piece.render.length) hreads.sepIdx (hreads.eqIdx ▸ heq)
    refine ⟨s₂, hreads.trans hreads', fun hmem => ?_, ?_⟩
    · rw [flatMap_cons, mem_append] at hmem
      rcases hmem with hmem | hmem
      · exact hreads'.encoded (henc hmem)
      · exact henc' hmem
    · rw [flatMap_cons, append_assoc, hloop, hloop', length_append, Nat.add_assoc]

lemma parseLoop_escape (hsep : s.sepIdx = 0) (heq : s.eqIdx ≤ 1) (text : JsString) :
    ∃ s', Reads s s' ∧ (unit '%' ∈ escape text → s'.encoded) ∧
      parseLoop defaultOptions str i (escape text ++ rest) s =
        parseLoop defaultOptions str (i + (escape text).length) rest s' :=
  parseLoop_pieces hsep heq _

end

structure AtPair (s : ParseState) (i : ℕ) : Prop where
  lastPos : s.lastPos = i
  sepIdx : s.sepIdx = 0
  eqIdx : s.eqIdx = 0
  key : s.key = []
  value : s.value = []

structure AfterPair (str : JsString) (s : ParseState) (pair : Pair) (i : ℕ) (s' : ParseState) :
    Prop where
  obj : s'.obj = s.obj
  pairs : s'.pairs = s.pairs
  sepIdx : s'.sepIdx = 0
  eqIdx : s'.eqIdx = 1
  key : s'.key = escape pair.1
  value : s'.value = []
  rest : substring str s'.lastPos i = escape pair.2
  keyEncoded : unit '%' ∈ escape pair.1 → s'.keyEncoded
  valEncoded : unit '%' ∈ escape pair.2 → s'.valEncoded

section

variable {s s' : ParseState} {str rest : JsString} {i : ℕ}

lemma substring_of_drop {read : JsString} (h : str.drop i = read ++ rest) (hi : i ≤ str.length) :
    substring str i (i + read.length) = read := by
  rw [substring_append h (Nat.le_refl _) hi, substring_self, nil_append]

lemma parseLoop_field (h : AtPair s i) (pair : Pair) (hi : i ≤ str.length)
    (hdrop : str.drop i = field pair ++ rest) :
    ∃ s', AfterPair str s pair (i + (field pair).length) s' ∧
      parseLoop defaultOptions str i (field pair ++ rest) s =
        parseLoop defaultOptions str (i + (field pair).length) rest s' := by
  obtain ⟨k, v⟩ := pair
  have hfield : field (k, v) ++ rest = escape k ++ unit '=' :: (escape v ++ rest) := by
    simp [field, js]
  have hlength : (field (k, v)).length = (escape k).length + 1 + (escape v).length := by
    simp [field, js]
    omega
  rw [hfield] at hdrop ⊢
  obtain ⟨s₁, hreads, henc, hloop⟩ := @parseLoop_escape s str (unit '=' :: (escape v ++ rest)) i
    h.sepIdx (h.eqIdx ▸ Nat.zero_le 1) k
  have hdrop' := drop_succ (drop_add_length hdrop)
  have hi' := lt_length_of_drop (drop_add_length hdrop)
  have hkey := substring_of_drop hdrop hi
  -- the separator of the key and the value
  have hstep : step defaultOptions str (i + (escape k).length) (unit '=') s₁ = .next { s₁ with
        sepIdx := 0, eqIdx := 1, key := escape k, encodeCheck := 0,
        lastPos := i + (escape k).length + 1 } := by
    have heq : s₁.eqIdx = 0 := hreads.eqIdx.trans h.eqIdx
    have hsep : s₁.sepIdx = 0 := hreads.sepIdx
    have hlast : s₁.lastPos = i := hreads.lastPos.trans h.lastPos
    have hnil : s₁.key = [] := hreads.key.trans h.key
    have hne : unit '&' ≠ unit '=' := by decide
    simp [step, defaultOptions, js, hsep, heq, hne, hlast, hnil, hkey]
  obtain ⟨s₂, hreads', henc', hloop'⟩ := @parseLoop_escape
    { s₁ with
      sepIdx := 0, eqIdx := 1, key := escape k, encodeCheck := 0,
      lastPos := i + (escape k).length + 1 } str rest (i + (escape k).length + 1) rfl
    (Nat.le_refl 1) v
  have henc₁ : unit '%' ∈ escape k → s₁.keyEncoded := by
    intro hmem
    simpa [ParseState.encoded, hreads.eqIdx.trans h.eqIdx] using henc hmem
  refine ⟨s₂, ?_, ?_⟩
  · refine ⟨hreads'.obj.trans hreads.obj, hreads'.pairs.trans hreads.pairs, hreads'.sepIdx,
      hreads'.eqIdx, hreads'.key, hreads'.value.trans (hreads.value.trans h.value), ?_, ?_, ?_⟩
    · rw [hreads'.lastPos, hlength, ← Nat.add_assoc]
      exact substring_of_drop hdrop' hi'
    · exact fun hmem => hreads'.keyEncoded (henc₁ hmem)
    · intro hmem
      simpa [ParseState.encoded, hreads'.eqIdx] using henc' hmem
  · rw [hloop, parseLoop, hstep, hlength, ← Nat.add_assoc]
    exact hloop'

lemma decode_escape {text : JsString} {encoded : Bool} (h : WellFormed text)
    (henc : unit '%' ∈ escape text → encoded) :
    (if escape text ≠ [] ∧ encoded then qsUnescape (escape text) else escape text) = text := by
  obtain ⟨cs, rfl⟩ := h
  simp only [escape, scalars_encodeUtf16] at henc ⊢
  split_ifs with hcond
  · rw [qsUnescape, decodeURIComponent_escaped]
  · refine escaped_of_notMem fun hmem => hcond ⟨ne_nil_of_mem hmem, henc hmem⟩

variable {pair : Pair}

lemma AfterPair.addKeyVal (h : AfterPair str s pair i s')
    (hk : WellFormed pair.1) (hv : WellFormed pair.2) :
    addKeyVal defaultOptions { s' with value := escape pair.2 } = addValue s.obj pair.1 pair.2 := by
  have hkey := decode_escape hk h.keyEncoded
  have hvalue := decode_escape hv h.valEncoded
  unfold Querystring.addKeyVal
  simp [defaultOptions, h.key, h.obj, hkey, hvalue]

lemma step_separator (h : AfterPair str s pair i s') (hk : WellFormed pair.1)
    (hv : WellFormed pair.2) (hpairs : s.pairs ≠ 1) :
    ∃ s'', step defaultOptions str i (unit '&') s' = .next s'' ∧ AtPair s'' (i + 1) ∧
      s''.obj = addValue s.obj pair.1 pair.2 ∧ s''.pairs = s.pairs - 1 := by
  have hadd := h.addKeyVal hk hv
  have hobj : addKeyVal defaultOptions { s' with sepIdx := 1, value := escape pair.2 } =
      addValue s.obj pair.1 pair.2 := hadd
  have hpairs' : ¬s.pairs - 1 = 0 := by omega
  have hstep : step defaultOptions str i (unit '&') s' =
      finishPair defaultOptions i { s' with sepIdx := 1, value := escape pair.2 } := by
    have hrest := h.rest
    simp [step, endPair, defaultOptions, js, h.sepIdx, h.eqIdx, h.value, hrest]
  rw [hstep, finishPair, hobj]
  simp only [h.pairs, if_neg hpairs']
  exact ⟨_, rfl, ⟨rfl, rfl, rfl, rfl, rfl⟩, rfl, rfl⟩

lemma finishParse_eq (h : AfterPair str s pair str.length s')
    (hk : WellFormed pair.1) (hv : WellFormed pair.2) :
    finishParse defaultOptions str s' = addValue s.obj pair.1 pair.2 := by
  have hrest : str.drop s'.lastPos = escape pair.2 := by
    rw [← h.rest, substring, take_length]
  have hadd := h.addKeyVal hk hv
  have heq : ¬s'.eqIdx < defaultOptions.eqCodes.length := by
    rw [h.eqIdx]
    decide
  have hsep : s'.sepIdx < defaultOptions.sepCodes.length := by
    rw [h.sepIdx]
    decide
  unfold finishParse
  rw [h.value, hrest]
  split_ifs with hlast hnil
  · exact hadd
  · rw [h.eqIdx] at hnil
    cases hnil.1
  · rw [drop_eq_nil_of_le (Nat.le_of_not_gt hlast)] at hrest
    have hvalue : { s' with value := escape pair.2 } = s' := by rw [← hrest, ← h.value]
    rwa [hvalue] at hadd

/-- The rest of a run, from the start of a pair on. -/
lemma runParse_pairs (h : AtPair s i) (pair : Pair) (pairs : List Pair) (hi : i ≤ str.length)
    (hdrop : str.drop i = field pair ++ pairs.flatMap fun pair => unit '&' :: field pair)
    (hwf : ∀ p ∈ pair :: pairs, WellFormed p.1 ∧ WellFormed p.2)
    (hpairs : (pairs.length : ℤ) < s.pairs) :
    runParse defaultOptions str i (str.drop i) s =
      (pair :: pairs).foldl (fun obj p => addValue obj p.1 p.2) s.obj := by
  induction pairs generalizing s i pair with
  | nil =>
    obtain ⟨hk, hv⟩ := hwf pair mem_cons_self
    obtain ⟨s', hafter, hloop⟩ := parseLoop_field h pair hi hdrop
    have hend : i + (field pair).length = str.length := by
      have hlength := congrArg List.length hdrop
      rw [length_drop, length_append, flatMap_nil, length_nil] at hlength
      omega
    rw [hend] at hafter
    rw [runParse, hdrop, hloop]
    exact finishParse_eq hafter hk hv
  | cons next pairs ih =>
    obtain ⟨⟨hk, hv⟩, hwf⟩ := List.forall_mem_cons.mp hwf
    rw [flatMap_cons, cons_append] at hdrop
    rw [length_cons] at hpairs
    obtain ⟨s', hafter, hloop⟩ := parseLoop_field h pair hi hdrop
    obtain ⟨s'', hstep, hat, hobj, hcount⟩ := step_separator hafter hk hv (by omega)
    have hdrop' := drop_add_length hdrop
    have hrest := drop_succ hdrop'
    have hnext := ih hat next (lt_length_of_drop hdrop') hrest hwf (by omega)
    rw [foldl_cons, ← hobj, ← hnext, runParse, hdrop, hloop, parseLoop, hstep, hrest]
    rfl

end

/-! ### The object -/

/-- A well-formed string, or a list of at least two. -/
def Valid : QueryValue → Prop
  | .one value => WellFormed value
  | .many values => 2 ≤ values.length ∧ ∀ value ∈ values, WellFormed value

section

variable {obj : JsObject QueryValue} {acc : List (JsString × QueryValue)} {k : JsString}

lemma Valid.wellFormed {value : QueryValue} (h : Valid value) :
    ∀ v ∈ value.toList, WellFormed v := by
  cases value with
  | one value => exact List.forall_mem_singleton.mpr h
  | many values => exact h.2

def addValues (obj : JsObject QueryValue) (k : JsString) (vs : List JsString) :
    JsObject QueryValue :=
  vs.foldl (fun obj v => addValue obj k v) obj

lemma addValue_new (h : k ∉ obj.entries.map Prod.fst) (v : JsString) :
    (addValue obj k v).entries = obj.entries ++ [(k, .one v)] := by
  rw [addValue, get?, lookup_eq_none_iff_notMem.mpr h]
  exact setEntry_of_notMem h

lemma addValue_last {old : QueryValue} (hk : k ∉ acc.map Prod.fst)
    (h : obj.entries = acc ++ [(k, old)]) (v : JsString) :
    (addValue obj k v).entries = acc ++ [(k, .many (old.toList ++ [v]))] := by
  rw [addValue, get?, h, lookup_append hk]
  cases old with
  | one w | many ws =>
    change setEntry obj.entries k _ = _
    rw [h, setEntry_append hk]
    rfl

lemma addValues_many {ws : List JsString} (hk : k ∉ acc.map Prod.fst)
    (h : obj.entries = acc ++ [(k, .many ws)]) (vs : List JsString) :
    (addValues obj k vs).entries = acc ++ [(k, .many (ws ++ vs))] := by
  induction vs generalizing obj ws with
  | nil => rw [append_nil, ← h, addValues, foldl_nil]
  | cons v vs ih =>
    have hrest := ih (addValue_last hk h v)
    rw [append_assoc] at hrest
    exact hrest

lemma addValues_eq (hk : k ∉ obj.entries.map Prod.fst) {value : QueryValue} (h : Valid value) :
    (addValues obj k value.toList).entries = obj.entries ++ [(k, value)] := by
  cases value with
  | one v => exact addValue_new hk v
  | many vs =>
    match vs, h.1 with
    | v :: w :: vs, _ => exact addValues_many hk (addValue_last hk (addValue_new hk v) w) vs

lemma foldl_pairsOf (entries : List (JsString × QueryValue))
    (hnodup : (obj.entries.map Prod.fst ++ entries.map Prod.fst).Nodup)
    (hvalid : ∀ e ∈ entries, Valid e.2) :
    ((pairsOf entries).foldl (fun obj p => addValue obj p.1 p.2) obj).entries =
      obj.entries ++ entries := by
  induction entries generalizing obj with
  | nil => simp [pairsOf]
  | cons e entries ih =>
    obtain ⟨k, value⟩ := e
    obtain ⟨hvalue, hvalid⟩ := List.forall_mem_cons.mp hvalid
    rw [nodup_append] at hnodup
    have hk : k ∉ obj.entries.map Prod.fst := fun hmem => hnodup.2.2 k hmem k mem_cons_self rfl
    have hadd := addValues_eq hk hvalue
    have hfirst : (value.toList.map fun v => (k, v)).foldl
        (fun obj p => addValue obj p.1 p.2) obj = addValues obj k value.toList := by
      rw [foldl_map]
      rfl
    rw [pairsOf_cons, foldl_append, hfirst, ih ?_ hvalid, hadd, append_assoc]
    · rfl
    · rw [hadd, map_append, append_assoc]
      exact List.nodup_append.mpr hnodup

end

/-- An object with well-formed keys and values is written as a query string, and the query string is
read as an object with the same keys and values, in the same order. -/
theorem parse_stringify (obj : JsObject QueryValue)
    (hkeys : ∀ e ∈ obj.ownEntries, WellFormed e.1) (hvalues : ∀ e ∈ obj.ownEntries, Valid e.2)
    (hpairs : (pairsOf obj.ownEntries).length ≤ 1000) :
    ∃ str, stringify obj [] [] none = .ok str ∧
      (parse str [] [] none 1000).ownEntries = obj.ownEntries := by
  have hwritten : stringify obj [] [] none =
      .ok (((pairsOf obj.ownEntries).map field).foldl addField []) :=
    stringifyEntries_eq obj.ownEntries hkeys fun e he => (hvalues e he).wellFormed
  refine ⟨_, hwritten, ?_⟩
  have hnodup : (obj.ownEntries.map Prod.fst).Nodup :=
    ((perm_order obj.entries).map Prod.fst).nodup_iff.mpr obj.nodup
  have hfold := @foldl_pairsOf .empty obj.ownEntries hnodup hvalues
  have hwf : ∀ p ∈ pairsOf obj.ownEntries, WellFormed p.1 ∧ WellFormed p.2 := by
    intro p hp
    obtain ⟨e, he, hp⟩ := List.mem_flatMap.mp hp
    obtain ⟨v, hv, rfl⟩ := List.mem_map.mp hp
    exact ⟨hkeys e he, (hvalues e he).wellFormed v hv⟩
  suffices h : parse (((pairsOf obj.ownEntries).map field).foldl addField []) [] [] none 1000 =
      (pairsOf obj.ownEntries).foldl (fun obj p => addValue obj p.1 p.2) .empty by
    rw [h, ownEntries, hfold]
    exact order_order obj.entries
  generalize pairsOf obj.ownEntries = pairs at hpairs hwf
  cases pairs with
  | nil => rfl
  | cons pair pairs =>
    have hfields : ((pair :: pairs).map field).foldl addField [] =
        field pair ++ pairs.flatMap fun pair => unit '&' :: field pair := by
      exact foldl_addField pairs (field_ne_nil pair)
    have hne : field pair ++ (pairs.flatMap fun pair => unit '&' :: field pair) ≠ [] := by
      simp [field_ne_nil]
    rw [hfields]
    generalize hstr : field pair ++ (pairs.flatMap fun pair => unit '&' :: field pair) = str at hne
    have hrun := @runParse_pairs (initialState defaultOptions) str 0 ⟨rfl, rfl, rfl, rfl, rfl⟩ pair
      pairs (Nat.zero_le _) hstr.symm hwf (by
        rw [length_cons] at hpairs
        change (pairs.length : ℤ) < 1000
        omega)
    rw [parse, if_neg hne]
    exact hrun

def sampleQuery : JsObject QueryValue where
  entries := [(encodeUtf16 ['é', '&'], .many [encodeUtf16 ['a', ' '], encodeUtf16 []]),
    (encodeUtf16 [], .one (encodeUtf16 ['𝄞']))]
  nodup := by decide

theorem parse_stringify_sample : ∃ str, stringify sampleQuery [] [] none = .ok str ∧
      (parse str [] [] none 1000).ownEntries = sampleQuery.ownEntries := by
  have hentries : sampleQuery.ownEntries = sampleQuery.entries :=
    @order_append _ [] sampleQuery.entries .nil (by simp) (by decide)
  refine parse_stringify sampleQuery ?_ ?_ ?_
  · rw [hentries]
    exact List.forall_mem_cons.mpr ⟨⟨_, rfl⟩, List.forall_mem_singleton.mpr ⟨_, rfl⟩⟩
  · rw [hentries]
    refine List.forall_mem_cons.mpr ⟨⟨by decide, ?_⟩, List.forall_mem_singleton.mpr ⟨_, rfl⟩⟩
    exact List.forall_mem_cons.mpr ⟨⟨_, rfl⟩, List.forall_mem_singleton.mpr ⟨_, rfl⟩⟩
  · rw [hentries]
    decide

/-- A well-formed string can be escaped, and unescaping gives it back. -/
theorem qsUnescape_qsEscape {s : JsString} (h : WellFormed s) :
    ∃ str, qsEscape s = .ok str ∧ qsUnescape str = s := by
  obtain ⟨cs, rfl⟩ := h
  refine ⟨escaped cs, encodeStr_encodeUtf16 cs, ?_⟩
  rw [qsUnescape, decodeURIComponent_escaped]

theorem qsUnescape_qsEscape_space :
    ∃ str, qsEscape (js "a b") = .ok str ∧ qsUnescape str = js "a b" :=
  qsUnescape_qsEscape ⟨"a b".toList, rfl⟩

end Deno.Querystring
