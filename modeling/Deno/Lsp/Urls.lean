import Deno.Core.Split

/-!
# URLs of the language server

A client gets a remote specifier as a `deno:` URL, whose path has the pieces of the specifier.
-/

namespace Deno

open List

def isDots (segment : List Char) : Bool := segment = ['.'] || segment = ['.', '.']

/-- The path of a URL, to which segments are added. -/
def addSegments (path : List (List Char)) : List (List Char) → List (List Char)
  | [] => path
  | segment :: segments =>
    let shorter := if segment = ['.', '.'] then path.dropLast else path
    addSegments (if !isDots segment then path ++ [segment]
      else if segments.isEmpty then shorter ++ [[]] else shorter) segments

/-- Percent encoding of components, which leaves dots. A text without a percent sign is decoded to
itself. -/
structure ComponentCodec where
  encode : List Char → List Char
  decode : List Char → Option (List Char)
  decode_encode (p : List Char) : decode (encode p) = some p
  slash_notMem (p : List Char) : '/' ∉ p → '/' ∉ encode p
  encode_dots (p : List Char) : isDots p ∨ isDots (encode p) → encode p = p
  decode_plain (p : List Char) : '%' ∉ p → decode p = some p

namespace ComponentCodec

variable (codec : ComponentCodec) {scheme rest : List Char}

/-- What follows `deno:/`. The specifier is its scheme and the text from its host on. -/
def toDenoUrl (scheme rest : List Char) : List Char :=
  ['/'].intercalate (scheme :: (rest.splitOn '/').map codec.encode)

/-- The text of the specifier that is parsed. -/
def fromDenoUrl (path : List Char) : Option (List Char) :=
  match addSegments [] (path.splitOn '/') with
  | scheme :: host :: segments => do
    let parts ← (host :: segments).mapM codec.decode
    return scheme ++ "://".toList ++ ['/'].intercalate parts
  | _ => none

lemma addSegments_eq {segments : List (List Char)} (h : ∀ w ∈ segments, isDots w = false)
    (path : List (List Char)) : addSegments path segments = path ++ segments := by
  induction segments generalizing path with
  | nil => simp [addSegments]
  | cons w ws ih =>
    rw [forall_mem_cons] at h
    simp [addSegments, h.1, ih h.2]

lemma isDots_encode (p : List Char) : isDots (codec.encode p) = isDots p := by
  by_cases h : isDots p ∨ isDots (codec.encode p)
  · rw [codec.encode_dots p h]
  · simp_all

lemma mapM_decode (parts : List (List Char)) :
    (parts.map codec.encode).mapM codec.decode = some parts := by
  induction parts with
  | nil => rfl
  | cons p ps ih => simp [codec.decode_encode, ih]

lemma splitOn_toDenoUrl (hscheme : '/' ∉ scheme) :
    (codec.toDenoUrl scheme rest).splitOn '/' = scheme :: (rest.splitOn '/').map codec.encode := by
  refine splitOn_intercalate _ ?_ (cons_ne_nil _ _)
  rw [forall_mem_cons, forall_mem_map]
  exact ⟨hscheme, fun p hp => codec.slash_notMem p (Core.notMem_of_mem_splitOn hp)⟩

/-- No segment that is added is a dot segment. -/
lemma mem_addSegments {path segments : List (List Char)} {w : List Char}
    (h : w ∈ addSegments path segments) :
    w ∈ path ∨ w = [] ∨ w ∈ segments ∧ isDots w = false := by
  induction segments generalizing path with
  | nil => exact .inl h
  | cons segment segments ih =>
    have hdrop : w ∈ path.dropLast → w ∈ path := fun h => (dropLast_sublist _).subset h
    grind [addSegments]

/-- A segment has no slash. What it is decoded to has no slash either, and is no dot segment. -/
lemma decode_of_mem_addSegments (hscheme : '/' ∉ scheme ∧ '%' ∉ scheme) {w : List Char}
    (h : w ∈ addSegments [] (scheme :: (rest.splitOn '/').map codec.encode)) :
    '/' ∉ w ∧ ∃ p, codec.decode w = some p ∧ '/' ∉ p ∧ isDots p = false := by
  rcases mem_addSegments h with h | rfl | ⟨h, hdots⟩
  · cases h
  · exact ⟨not_mem_nil, [], codec.decode_plain [] not_mem_nil, not_mem_nil, rfl⟩
  · rcases mem_cons.mp h with rfl | h
    · exact ⟨hscheme.1, w, codec.decode_plain w hscheme.2, hscheme.1, hdots⟩
    · obtain ⟨p, hp, rfl⟩ := mem_map.mp h
      have hslash := Core.notMem_of_mem_splitOn hp
      exact ⟨codec.slash_notMem p hslash, p, codec.decode_encode p, hslash,
        codec.isDots_encode p ▸ hdots⟩

lemma exists_of_mem_mapM {ws parts : List (List Char)} (h : ws.mapM codec.decode = some parts) :
    ∀ p ∈ parts, ∃ w ∈ ws, codec.decode w = some p := by
  induction ws generalizing parts with
  | nil => simp_all
  | cons w ws ih =>
    simp only [mapM_cons, Option.bind_eq_bind, Option.bind_eq_some_iff, pure, Option.some.injEq] at h
    obtain ⟨q, hq, qs, hqs, rfl⟩ := h
    have := ih hqs
    grind

/-- What comes back has no dot segment. -/
lemma isDots_of_fromDenoUrl (hscheme : '/' ∉ scheme ∧ '%' ∉ scheme)
    (h : codec.fromDenoUrl (codec.toDenoUrl scheme rest) = some (scheme ++ "://".toList ++ rest)) :
    ∀ p ∈ rest.splitOn '/', isDots p = false := by
  rw [fromDenoUrl, codec.splitOn_toDenoUrl hscheme.1] at h
  have hdecode {w} := @codec.decode_of_mem_addSegments scheme rest hscheme w
  generalize addSegments [] _ = added at h hdecode
  obtain _ | ⟨scheme', _ | ⟨host, segments⟩⟩ := added
  · cases h
  · cases h
  · obtain ⟨parts, hparts, htext⟩ := Option.bind_eq_some_iff.mp h
    have hplain (p) (hp : p ∈ parts) : '/' ∉ p ∧ isDots p = false := by
      obtain ⟨w, hw, hwp⟩ := codec.exists_of_mem_mapM hparts p hp
      obtain ⟨-, q, hq, hplain⟩ := hdecode (mem_cons_of_mem _ hw)
      rw [hwp] at hq
      exact Option.some.inj hq ▸ hplain
    have hne : parts ≠ [] := by
      rintro rfl
      simp [Option.bind_eq_some_iff] at hparts
    have hsame : scheme' ++ [':'] ++ '/' :: '/' :: ['/'].intercalate parts =
        scheme ++ [':'] ++ '/' :: '/' :: rest := by simpa using htext
    have hrest := (Core.append_cons_inj (by simpa using (hdecode mem_cons_self).1)
      (by simpa using hscheme.1) hsame).2
    rw [← (cons.inj hrest).2, splitOn_intercalate _ (fun p hp => (hplain p hp).1) hne]
    exact fun p hp => (hplain p hp).2

/-- A specifier comes back if and only if no piece of it is `.` or `..`. -/
theorem fromDenoUrl_toDenoUrl_iff (hscheme : scheme = "http".toList ∨ scheme = "https".toList) :
    codec.fromDenoUrl (codec.toDenoUrl scheme rest) = some (scheme ++ "://".toList ++ rest) ↔
      ∀ p ∈ rest.splitOn '/', isDots p = false := by
  have hs : '/' ∉ scheme ∧ '%' ∉ scheme ∧ isDots scheme = false := by
    rcases hscheme with rfl | rfl <;> decide
  refine ⟨codec.isDots_of_fromDenoUrl ⟨hs.1, hs.2.1⟩, fun hrest => ?_⟩
  have hjoin : ['/'].intercalate (rest.splitOn '/') = rest := intercalate_splitOn _
  obtain ⟨host, segments, hparts⟩ := exists_cons_of_ne_nil (splitOn_ne_nil '/' rest)
  have hdecode := codec.mapM_decode (host :: segments)
  rw [fromDenoUrl, codec.splitOn_toDenoUrl hs.1, addSegments_eq, nil_append, hparts]
  · rw [hparts] at hjoin
    rw [map_cons] at hdecode ⊢
    dsimp only
    rw [hdecode, ← hjoin]
    rfl
  · simpa [hs.2.2, codec.isDots_encode] using hrest

def plain : ComponentCodec :=
  ⟨id, some, fun _ => rfl, fun _ => id, fun _ _ => rfl, fun _ _ => rfl⟩

theorem fromDenoUrl_toDenoUrl_iff_module :
    plain.fromDenoUrl (plain.toDenoUrl "https".toList "deno.land/x//mod.ts".toList) =
      some "https://deno.land/x//mod.ts".toList :=
  (plain.fromDenoUrl_toDenoUrl_iff (.inr rfl)).mpr (by decide)

/-- A piece of the query is taken for a dot segment. -/
lemma fromDenoUrl_query : codec.fromDenoUrl (codec.toDenoUrl "https".toList "h/?/../b".toList) =
    some "https://h/b".toList := by
  have hsplit : "h/?/../b".toList.splitOn '/' = [['h'], ['?'], ['.', '.'], ['b']] := by
    decide
  rw [fromDenoUrl, codec.splitOn_toDenoUrl (by decide), hsplit]
  simp only [map_cons, map_nil, addSegments, codec.isDots_encode,
    codec.encode_dots ['.', '.'] (.inl rfl)]
  simp [isDots, codec.decode_encode]

theorem fromDenoUrl_dots : plain.fromDenoUrl (plain.toDenoUrl "https".toList "h/?/../b".toList) =
    some "https://h/b".toList := plain.fromDenoUrl_query

end ComponentCodec

end Deno
