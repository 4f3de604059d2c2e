import Deno.Fetch.FormDataWriter

/-!
# Forms are read back

The headers of a part are read as Latin-1 and cut at punctuation, so it depends on its names whether
an entry is read back.
-/

namespace Deno.Fetch

open Core List MultipartParser JsObject
open Web (normalizeType)

/-! ### Bytes as Latin-1 -/

/-- The text of a string on the wire, read as Latin-1. -/
def wire (s : JsString) : JsString := latin1 (encodeText s)

lemma latin1Unit_toNat (b : UInt8) : (latin1Unit b).toNat = b.toNat :=
  unit_toNat_of_lt (lt_trans b.toNat_lt (by decide))

lemma latin1Unit_injective : Function.Injective latin1Unit := by
  intro b b' h
  rw [← UInt8.toNat_inj, ← latin1Unit_toNat, h, latin1Unit_toNat]

lemma latin1_append (bytes bytes' : Bytes) : latin1 (bytes ++ bytes') = latin1 bytes ++ latin1 bytes' :=
  map_append

variable {u : UInt16}

lemma le_of_mem_latin1 {bytes : Bytes} (h : u ∈ latin1 bytes) : u ≤ 255 := by
  obtain ⟨b, -, rfl⟩ := List.mem_map.mp h
  rw [UInt16.le_iff_toNat_le, latin1Unit_toNat]
  exact Nat.le_of_lt_succ b.toNat_lt

lemma FieldName.mem_wire (name : FieldName) {b : UInt8} (hlt : b < 0x80) :
    latin1Unit b ∈ wire name.text ↔ latin1Unit b ∈ name.text := by
  obtain ⟨cs, hcs⟩ := name.wellFormed
  rw [wire, latin1, mem_map_of_injective latin1Unit_injective, hcs, mem_encodeText_encodeUtf16 hlt]

lemma FieldName.wire_ne_nil (name : FieldName) : wire name.text ≠ [] := by
  obtain ⟨cs, hcs⟩ := name.wellFormed
  cases cs with
  | nil => exact absurd hcs name.ne_nil
  | cons c cs =>
    intro h
    have hbytes : encodeText name.text = [] := List.map_eq_nil_iff.mp h
    have hdecode := decodeText_encodeText_encodeUtf16 (c :: cs)
    rw [← hcs, hbytes] at hdecode
    exact name.ne_nil hdecode.symm

lemma decodeLatin1StringAsUtf8_latin1 (decoder : TextDecoder) (bytes : Bytes) :
    decodeLatin1StringAsUtf8 decoder (latin1 bytes) = decoder.decode bytes := by
  have hbytes : (latin1 bytes).map (fun u => UInt8.ofNat u.toNat) = bytes := by
    rw [latin1, map_map]
    conv_rhs => rw [← map_id bytes]
    refine map_congr_left fun b _ => ?_
    rw [Function.comp, latin1Unit_toNat, UInt8.ofNat_toNat]
    rfl
  rw [decodeLatin1StringAsUtf8, hbytes]

/-! ### Headers -/

section

variable (field : Field)

def Field.disposition : JsString :=
  js "form-data; name=\"" ++ (wire field.name.text ++
    match field.value with
    | .text _ => js "\""
    | .file name _ _ => js "\"; filename=\"" ++ (wire name.text ++ js "\""))

def Field.contentType : Option JsString :=
  match field.value with
  | .text _ => none
  | .file _ type _ => some type.text

lemma BlobType.wire_eq (type : BlobType) : wire type.text = type.text := by
  rw [wire, encodeText_ascii type.ascii, latin1, map_map]
  conv_rhs => rw [← map_id type.text]
  refine map_congr_left fun u hu => ?_
  have hlt : u.toNat < 0x80 := UInt16.lt_iff_toNat_lt.mp (type.ascii u hu)
  rw [Function.comp, ← UInt16.toNat_inj, latin1Unit_toNat, toNat_ofNat_of_lt (by omega)]
  rfl

lemma Field.headerText_eq :
    field.part.headerText = js "Content-Disposition: " ++ field.disposition ++ js "\r\n" ++
      (field.contentType.elim [] fun type => js "Content-Type: " ++ type ++ js "\r\n") := by
  have hstart : latin1 (encodeText (js "Content-Disposition: form-data; name=\"")) =
    js "Content-Disposition: " ++ js "form-data; name=\"" := rfl
  have hquote : latin1 (encodeText (js "\"")) = js "\"" := rfl
  have hfilename : latin1 (encodeText (js "\"; filename=\"")) = js "\"; filename=\"" := rfl
  have htype : latin1 (encodeText (js "Content-Type: ")) = js "Content-Type: " := rfl
  have hcrlf : latin1 crlf = js "\r\n" := rfl
  obtain ⟨name, value⟩ := field
  cases value with
  | text value =>
    simp [Part.headerText, part, headers, disposition, contentType, latin1_append, hstart, hquote,
      hcrlf, wire]
  | file filename type bytes =>
    have hwire : latin1 (encodeText type.text) = type.text := type.wire_eq
    simp [Part.headerText, part, headers, disposition, contentType, latin1_append, hstart, hquote,
      hfilename, htype, hcrlf, wire, hwire]

lemma splitLines_cons {s line : JsString} {lines : List JsString}
    (hu : u ≠ unit '\r') (h : splitLines s = line :: lines) :
    splitLines (u :: s) = (u :: line) :: lines := by
  cases s with
  | nil =>
    obtain ⟨rfl, rfl⟩ := List.cons.inj h
    rfl
  | cons v s => rw [splitLines, if_neg fun hbreak => hu hbreak.1, h]

lemma splitLines_append {line : JsString} (h : unit '\r' ∉ line) (rest : JsString) :
    splitLines (line ++ (js "\r\n" ++ rest)) = line :: splitLines rest := by
  induction line with
  | nil => rfl
  | cons u line ih =>
    rw [mem_cons, not_or] at h
    exact splitLines_cons (Ne.symm h.1) (ih h.2)

lemma setRawHeader_append {key value : JsString} (h : unit ':' ∉ key) (headers : Headers) :
    setRawHeader headers (key ++ unit ':' :: value) = headers.set key value := by
  rw [setRawHeader, indexOf_append h]
  simp

def Field.names : List FieldName :=
  match field.value with
  | .text _ => [field.name]
  | .file filename _ _ => [field.name, filename]

end

variable {field : Field}

/-- A unit that is not in the fixed text is in a name. -/
lemma Field.mem_disposition_iff (hfixed : u ∉ js "form-data; name=\"; filename=\"") :
    u ∈ field.disposition ↔ ∃ name ∈ field.names, u ∈ wire name.text := by
  have hpiece : ∀ {piece : JsString}, piece.all (· ∈ js "form-data; name=\"; filename=\"") = true →
      u ∉ piece := fun hall hmem => hfixed (List.all_iff_forall_prop.mp hall _ hmem)
  have hname : u ∉ js "form-data; name=\"" := hpiece (by decide)
  have hfilename : u ∉ js "\"; filename=\"" := hpiece (by decide)
  have hquote : u ∉ js "\"" := hpiece (by decide)
  obtain ⟨name, value⟩ := field
  cases value with
  | text value => simp [disposition, names, hname, hquote]
  | file filename type bytes => simp [disposition, names, hname, hquote, hfilename]

lemma Field.mem_disposition (field : Field) {b : UInt8} (hlt : b < 0x80)
    (hfixed : latin1Unit b ∉ js "form-data; name=\"; filename=\"") :
    latin1Unit b ∈ field.disposition ↔ ∃ name ∈ field.names, latin1Unit b ∈ name.text := by
  simp [mem_disposition_iff hfixed, FieldName.mem_wire _ hlt]

lemma Field.le_of_mem_disposition (h : u ∈ field.disposition) : u ≤ 255 := by
  have hall : ∀ u ∈ js "form-data; name=\"; filename=\"", u ≤ 255 :=
    List.all_iff_forall_prop.mp (by decide)
  by_cases hfixed : u ∈ js "form-data; name=\"; filename=\""
  · exact hall u hfixed
  · obtain ⟨name, -, hmem⟩ := (mem_disposition_iff hfixed).mp h
    exact le_of_mem_latin1 hmem

lemma Field.oneLine_disposition (field : Field) : OneLine field.disposition := by
  constructor
  · intro h
    obtain ⟨name, -, hmem⟩ := (@mem_disposition field cr (by decide) (by decide)).mp h
    exact name.line.1 hmem
  · intro h
    obtain ⟨name, -, hmem⟩ := (@mem_disposition field lf (by decide) (by decide)).mp h
    exact name.line.2 hmem

lemma Field.parseLines_eq (field : Field) :
    (splitLines field.part.headerText).foldlM setRawHeader {} = (do
      let headers ← Headers.set {} (js "Content-Disposition") (unit ' ' :: field.disposition)
      match field.contentType with
      | none => return headers
      | some type => headers.set (js "Content-Type") (unit ' ' :: type)) := by
  have hcr : unit '\r' ∉ js "Content-Disposition: " ++ field.disposition := by
    rw [mem_append, not_or]
    exact ⟨by decide, field.oneLine_disposition.1⟩
  rw [headerText_eq, append_assoc, splitLines_append hcr]
  refine congrArg (Headers.set {} _ _ >>= ·) (funext fun headers => ?_)
  obtain ⟨name, value⟩ := field
  cases value with
  | text value => rfl
  | file filename type bytes =>
    have hcr : unit '\r' ∉ js "Content-Type: " ++ type.text := by
      rw [mem_append, not_or]
      exact ⟨by decide, fun h => absurd (type.printable _ h).1 (by decide)⟩
    have hsplit : splitLines (js "Content-Type: " ++ type.text ++ js "\r\n") =
        [js "Content-Type" ++ unit ':' :: unit ' ' :: type.text, []] := splitLines_append hcr []
    change (splitLines (js "Content-Type: " ++ type.text ++ js "\r\n")).foldlM _ _ = _
    rw [hsplit, foldlM_cons, setRawHeader_append (by decide)]
    change _ = headers.set (js "Content-Type") (unit ' ' :: type.text)
    cases headers.set (js "Content-Type") (unit ' ' :: type.text) with
    | error e | ok headers => rfl

/-! ### Values of headers -/

/-- A value behind a space. -/
structure PlainValue (value : JsString) : Prop where
  bytes : ∀ u ∈ value, u ≤ 255
  line : OneLine value
  head : value.head?.any (regexMatcher httpWhitespace) = false
  last : value.getLast?.any (regexMatcher httpWhitespace) = false

section

variable {value : JsString} {headers : Headers} (h : PlainValue value)

include h

lemma PlainValue.between_eq : between httpWhitespace (unit ' ' :: value) = value := by
  have hspace : stripPrefix httpWhitespace (unit ' ' :: value) = stripPrefix httpWhitespace value :=
    dropWhile_cons_of_pos (by decide)
  rw [between, hspace, stripPrefix_eq_self h.head, stripSuffix_eq_self h.last]

lemma PlainValue.normalize_eq : normalizeHeaderValue (unit ' ' :: value) = value := by
  have hdots : (between httpWhitespace (unit ' ' :: value)).all isDot := by
    rw [h.between_eq]
    refine List.all_eq_true.mpr fun u hu => ?_
    have hlf : u ≠ unit '\n' := fun heq => h.line.2 (heq ▸ hu)
    have hcr : u ≠ unit '\r' := fun heq => h.line.1 (heq ▸ hu)
    have hlarge : ∀ v : UInt16, 255 < v → u ≠ v := by
      rintro v hv rfl
      exact UInt16.not_lt.mpr (h.bytes u hu) hv
    simp [isDot, hlf, hcr, hlarge 0x2028 (by decide), hlarge 0x2029 (by decide)]
  rw [normalizeHeaderValue, httpTrim_eq hdots, h.between_eq]

lemma PlainValue.isByteString_cons : isByteString (unit ' ' :: value) := by
  refine List.all_eq_true.mpr (List.forall_mem_cons.mpr ⟨by decide, fun u hu => ?_⟩)
  exact decide_eq_true (h.bytes u hu)

lemma PlainValue.set_error (hnul : 0 ∈ value) (name : HeaderName) :
    headers.set name.text (unit ' ' :: value) = .error (typeError "Header value is not valid.") := by
  have hinvalid : checkForInvalidValueChars value = false := by
    rw [← Bool.not_eq_true, checkForInvalidValueChars, all_eq_true]
    intro hall
    exact absurd (hall 0 hnul) (by decide)
  rw [Headers.set, name.convert, convertByteString, if_pos h.isByteString_cons]
  change (do headers.check _ (some (normalizeHeaderValue (unit ' ' :: value))); _) = _
  rw [h.normalize_eq]
  simp [Headers.check, checkHeaderNameForHttpTokenCodePoint, name.token, hinvalid]

lemma PlainValue.set_ok (hnul : 0 ∉ value) (hguard : headers.guard = .none) (name : HeaderName) :
    ∃ headers', headers.set name.text (unit ' ' :: value) = .ok headers' ∧
      headers'.guard = .none ∧ valuesOf headers'.headerList =
        Function.update (valuesOf headers.headerList) name.lower [value] := by
  have hvalid : checkForInvalidValueChars (between httpWhitespace (unit ' ' :: value)) := by
    rw [h.between_eq]
    refine List.all_eq_true.mpr fun u hu => ?_
    have hlf : u ≠ 0x0a := by
      rintro rfl
      exact h.line.2 hu
    have hcr : u ≠ 0x0d := by
      rintro rfl
      exact h.line.1 hu
    have hnul' : u ≠ 0 := fun heq => hnul (heq ▸ hu)
    simp [hlf, hcr, hnul']
  obtain ⟨headers', hset, hguard', hvalues⟩ :=
    Headers.apply_eq_ok hguard (.set name ⟨_, h.isByteString_cons, hvalid⟩)
  refine ⟨headers', hset, hguard', hvalues.trans ?_⟩
  rw [HeaderOp.update, HeaderValue.normalized, h.between_eq]

end

section

variable (field : Field)

lemma Field.plain_disposition : PlainValue field.disposition where
  bytes := fun _ => le_of_mem_disposition
  line := field.oneLine_disposition
  head := rfl
  last := by
    have hlast : field.disposition.getLast? = some (unit '"') := by
      obtain ⟨name, value⟩ := field
      cases value with
      | text value =>
        change (js _ ++ (wire _ ++ [unit '"'])).getLast? = _
        rw [← append_assoc, getLast?_concat]
      | file filename type bytes =>
        change (js _ ++ (wire _ ++ (js _ ++ (wire _ ++ [unit '"'])))).getLast? = _
        simp
    rw [hlast]
    decide

lemma regexMatcher_printable (h : 0x20 ≤ u) (hspace : u ≠ unit ' ') :
    regexMatcher httpWhitespace u = false := by
  rw [← Bool.not_eq_true, regexMatcher_iff]
  rintro ⟨range, hrange, hge, hle⟩
  have hranges : ∀ range ∈ httpWhitespace,
      range.2 < 0x20 ∨ range.1 = unit ' ' ∧ range.2 = unit ' ' :=
    List.all_iff_forall_prop.mp (by decide)
  rcases hranges range hrange with hlow | ⟨hfirst, hlast⟩
  · exact UInt16.not_lt.mpr (UInt16.le_trans h hle) hlow
  · exact hspace (UInt16.le_antisymm (hlast ▸ hle) (hfirst ▸ hge))

lemma BlobType.plain (type : BlobType) : PlainValue type.text where
  bytes := fun u hu => UInt16.le_trans (type.printable u hu).2 (by decide)
  line :=
    ⟨fun h => absurd (type.printable _ h).1 (by decide),
      fun h => absurd (type.printable _ h).1 (by decide)⟩
  head := by
    cases hhead : type.text.head? with
    | none => rfl
    | some u =>
      refine regexMatcher_printable (type.printable u (mem_of_mem_head? hhead)).1 ?_
      rintro rfl
      exact type.trimmed.1 hhead
  last := by
    cases hlast : type.text.getLast? with
    | none => rfl
    | some u =>
      refine regexMatcher_printable (type.printable u (mem_of_mem_getLast? hlast)).1 ?_
      rintro rfl
      exact type.trimmed.2 hlast

/-! ### What the headers say -/

def contentDisposition : HeaderName := ⟨js "Content-Disposition", by decide⟩

def contentTypeName : HeaderName := ⟨js "Content-Type", by decide⟩

lemma Field.parseHeaders_error (h : 0 ∈ field.disposition) :
    parseHeaders field.part.headerText = .error (typeError "Header value is not valid.") := by
  have hset : Headers.set {} (js "Content-Disposition") (unit ' ' :: field.disposition) = .error _ :=
    field.plain_disposition.set_error h contentDisposition
  rw [parseHeaders, parseLines_eq, hset]
  rfl

lemma Field.parseLines_ok (h : 0 ∉ field.disposition) :
    ∃ headers, (splitLines field.part.headerText).foldlM setRawHeader {} = .ok headers ∧
      valuesOf headers.headerList contentDisposition.lower = [field.disposition] ∧
      valuesOf headers.headerList contentTypeName.lower = field.contentType.toList := by
  obtain ⟨headers, hset, hguard, hvalues⟩ :=
    @PlainValue.set_ok _ {} field.plain_disposition h rfl contentDisposition
  have hne : contentDisposition.lower ≠ contentTypeName.lower := by decide
  have hfirst : Headers.set {} (js "Content-Disposition") (unit ' ' :: field.disposition) =
    .ok headers := hset
  rw [parseLines_eq, hfirst]
  obtain ⟨name, value⟩ := field
  cases value with
  | text value =>
    refine ⟨headers, rfl, ?_, ?_⟩
    · rw [hvalues, Function.update_self]
    · rw [hvalues]
      rfl
  | file filename type bytes =>
    obtain ⟨headers', hset', -, hvalues'⟩ := type.plain.set_ok
      (fun hnul => absurd (type.printable 0 hnul).1 (by decide)) hguard contentTypeName
    refine ⟨headers', hset', ?_, ?_⟩
    · rw [hvalues', Function.update_of_ne hne, hvalues, Function.update_self]
    · rw [hvalues']
      rfl

lemma Field.parseHeaders_ok (h : 0 ∉ field.disposition) :
    ∃ headers, parseHeaders field.part.headerText =
        .ok (headers, parseContentDisposition field.disposition) ∧
      headers.get (js "Content-Type") = .ok field.contentType := by
  obtain ⟨headers, hlines, hdisposition, htype⟩ := field.parseLines_ok h
  have hget : headers.get (js "Content-Disposition") = .ok (some field.disposition) := by
    refine (headers.get_eq contentDisposition).trans ?_
    rw [hdisposition, joinValues, intercalate_singleton]
    simp
  refine ⟨headers, ?_, ?_⟩
  · rw [parseHeaders, hlines]
    change (do let disposition ← headers.get (js "Content-Disposition"); _) = _
    rw [hget]
    rfl
  · refine (headers.get_eq contentTypeName).trans ?_
    rw [htype]
    cases field.contentType with
    | none => rfl
    | some type =>
      rw [Option.toList, joinValues, intercalate_singleton]
      simp

end

/-! ### Parameters -/

section

variable {params : JsObject JsString} {key w value : JsString} {s : JsString}

lemma trim_cons (hhead : s.head?.any isTrimmed = false)
    (hlast : s.getLast?.any isTrimmed = false) : trim (unit ' ' :: s) = s := by
  have hspace : (unit ' ' :: s).dropWhile isTrimmed = s := by
    cases s with
    | nil => rfl
    | cons u s => exact dropWhile_cons_of_neg (by simpa using hhead)
  rw [trim, hspace]
  refine List.rdropWhile_eq_self_iff.mpr fun hne => ?_
  rw [getLast?_eq_getLast_of_ne_nil hne] at hlast
  simpa using hlast

def quotedParameter (key w : JsString) : JsString :=
  unit ' ' :: (key ++ unit '=' :: unit '"' :: (w ++ [unit '"']))

lemma semicolon_notMem_quotedParameter (hkey : unit ';' ∉ key) (hw : unit ';' ∉ w) :
    unit ';' ∉ quotedParameter key w := by
  simp only [quotedParameter, mem_cons, mem_append, not_mem_nil, or_false, not_or]
  exact ⟨by decide, hkey, by decide, by decide, hw, by decide⟩

lemma setParameter_quoted (hhead : key.head?.any isTrimmed = false) (hne : key ≠ [])
    (hkey : unit '=' ∉ key) (hw : unit '=' ∉ w) (hquote : unit '"' ∉ w) :
    setParameter params (quotedParameter key w) = params.set key w := by
  have htrim : trim (quotedParameter key w) = key ++ unit '=' :: unit '"' :: (w ++ [unit '"']) := by
    apply trim_cons
    · cases key with
      | nil => exact absurd rfl hne
      | cons u key => exact hhead
    · have hlast : (key ++ unit '=' :: unit '"' :: (w ++ [unit '"'])).getLast? = some (unit '"') := by
        rw [← cons_append, ← cons_append, ← append_assoc, getLast?_concat]
      rw [hlast]
      decide
  have hrest : unit '=' ∉ unit '"' :: (w ++ [unit '"']) := by
    simp only [mem_cons, mem_append, not_mem_nil, or_false, not_or]
    exact ⟨by decide, hw, by decide⟩
  rw [setParameter, htrim, splitOn_append_cons_self_of_not_mem hkey, splitOn_eq_singleton hrest]
  exact congrArg (params.set key) (by simp [unquote, hquote])

/-- Each of the values is a piece of the text between the separators. -/
def Cut (value : JsString) (params : JsObject JsString) : Prop :=
  ∀ key w, params.get? key = some w → ∀ u ∈ w, u ∈ value ∧ u ≠ unit ';' ∧ u ≠ unit '='

lemma mem_of_mem_trim {u : UInt16} (h : u ∈ trim s) : u ∈ s :=
  ((List.rdropWhile_prefix _ _).isInfix.trans (dropWhile_suffix _).isInfix).subset h

lemma mem_of_mem_unquote {u : UInt16} (h : u ∈ unquote s) : u ∈ s := by
  cases s with
  | nil => exact h
  | cons c rest =>
    rw [unquote] at h
    split_ifs at h
    · exact mem_cons_of_mem _ ((dropLast_sublist rest).subset h)
    · exact h

lemma Cut.setParameter {piece : JsString} (h : Cut value params)
    (hpiece : ∀ u ∈ piece, u ∈ value ∧ u ≠ unit ';') : Cut value (setParameter params piece) := by
  unfold Fetch.setParameter
  split
  · rename_i k content rest hsplit
    intro key w hw u hu
    rw [JsObject.get?, JsObject.set, lookup_setEntry] at hw
    split_ifs at hw
    · cases hw
      have hcontent : content ∈ (trim piece).splitOn (unit '=') := by simp [hsplit]
      have hmem := mem_of_mem_unquote hu
      obtain ⟨hvalue, hsemicolon⟩ := hpiece u (mem_of_mem_trim (mem_of_mem_splitOn hcontent hmem))
      refine ⟨hvalue, hsemicolon, ?_⟩
      rintro rfl
      exact notMem_of_mem_splitOn hcontent hmem
    · exact h key w hw u hu
  · exact h

lemma cut_parseContentDisposition (value : JsString) : Cut value (parseContentDisposition value) := by
  have hpieces : ∀ piece ∈ (value.splitOn (unit ';')).drop 1,
      ∀ u ∈ piece, u ∈ value ∧ u ≠ unit ';' := by
    intro piece hpiece u hu
    have hmem := mem_of_mem_drop hpiece
    refine ⟨mem_of_mem_splitOn hmem hu, ?_⟩
    rintro rfl
    exact notMem_of_mem_splitOn hmem hu
  unfold parseContentDisposition
  have hempty : Cut value .empty := fun _ _ hw => nomatch hw
  generalize (value.splitOn (unit ';')).drop 1 = pieces at hpieces
  generalize empty = params at hempty
  induction pieces generalizing params with
  | nil => exact hempty
  | cons piece pieces ih =>
    obtain ⟨hpiece, hpieces⟩ := List.forall_mem_cons.mp hpieces
    exact ih hpieces _ (hempty.setParameter hpiece)

end

def FieldName.Uncut (name : FieldName) : Prop := unit ';' ∉ name.text ∧ unit '=' ∉ name.text

instance (name : FieldName) : Decidable name.Uncut := inferInstanceAs (Decidable (_ ∧ _))

lemma FieldName.Uncut.wire {name : FieldName} (h : name.Uncut) :
    unit ';' ∉ wire name.text ∧ unit '=' ∉ wire name.text ∧ unit '"' ∉ wire name.text := by
  refine ⟨?_, ?_, ?_⟩
  · exact fun hmem => h.1 ((@mem_wire name 0x3B (by decide)).mp hmem)
  · exact fun hmem => h.2 ((@mem_wire name 0x3D (by decide)).mp hmem)
  · exact fun hmem => name.unquoted ((@mem_wire name 0x22 (by decide)).mp hmem)

lemma FieldName.Uncut.setParameter {name : FieldName} (h : name.Uncut) (params : JsObject JsString)
    {key : JsString} (hkey : key = js "name" ∨ key = js "filename") :
    setParameter params (quotedParameter key (Fetch.wire name.text)) =
      params.set key (Fetch.wire name.text) := by
  obtain ⟨-, hequals, hquote⟩ := h.wire
  rcases hkey with rfl | rfl <;>
    exact setParameter_quoted (by decide) (by decide) (by decide) hequals hquote

def Field.filename (field : Field) : Option FieldName :=
  match field.value with
  | .text _ => none
  | .file filename _ _ => some filename

lemma Field.params_eq (field : Field) (h : ∀ name ∈ field.names, name.Uncut) :
    (parseContentDisposition field.disposition).get? (js "name") = some (wire field.name.text) ∧
      (parseContentDisposition field.disposition).get? (js "filename") =
        field.filename.map fun filename => wire filename.text := by
  obtain ⟨name, value⟩ := field
  have hname : name.Uncut := h name (by cases value <;> exact mem_cons_self)
  have hparameter := semicolon_notMem_quotedParameter (by decide : unit ';' ∉ js "name") hname.wire.1
  cases value with
  | text value =>
    have hsplit : disposition ⟨name, .text value⟩ =
      js "form-data" ++ unit ';' :: quotedParameter (js "name") (wire name.text) := rfl
    have hparams : parseContentDisposition (disposition ⟨name, .text value⟩) =
        empty.set (js "name") (wire name.text) := by
      rw [parseContentDisposition, hsplit, splitOn_append_cons_self_of_not_mem (by decide),
        splitOn_eq_singleton hparameter]
      exact hname.setParameter _ (.inl rfl)
    rw [hparams]
    exact ⟨rfl, rfl⟩
  | file filename type bytes =>
    have hfilename : filename.Uncut := h filename (by simp [names])
    have hsplit : disposition ⟨name, .file filename type bytes⟩ =
        js "form-data" ++ unit ';' :: (quotedParameter (js "name") (wire name.text) ++
          unit ';' :: quotedParameter (js "filename") (wire filename.text)) := by
      simp [disposition, quotedParameter, js]
    have hparams : parseContentDisposition (disposition ⟨name, .file filename type bytes⟩) =
        (empty.set (js "name") (wire name.text)).set (js "filename") (wire filename.text) := by
      rw [parseContentDisposition, hsplit, splitOn_append_cons_self_of_not_mem (by decide),
        splitOn_append_cons_self_of_not_mem hparameter, splitOn_eq_singleton
          (semicolon_notMem_quotedParameter (by decide) hfilename.wire.1)]
      change setParameter (setParameter _ _) _ = _
      rw [hname.setParameter _ (.inl rfl), hfilename.setParameter _ (.inr rfl)]
    rw [hparams]
    exact ⟨rfl, rfl⟩

/-! ### Entries -/

namespace Field

variable (decoder : TextDecoder) (field : Field)

def decodedEntry : FormDataEntry where
  name := decoder.decode (encodeText field.name.text)
  value :=
    match field.value with
    | .text value => .text (decoder.decode (encodeText value.text))
    | .file filename type bytes =>
      .file ⟨decoder.decode (encodeText filename.text), type.text, bytes⟩

lemma entries_of_uncut (hnul : ∀ name ∈ field.names, 0 ∉ name.text)
    (huncut : ∀ name ∈ field.names, name.Uncut) :
    field.part.entries decoder = .ok [field.decodedEntry decoder] := by
  obtain ⟨headers, hheaders, htype⟩ := field.parseHeaders_ok fun h =>
    have ⟨name, hname, hmem⟩ := (@mem_disposition field 0 (by decide) (by decide)).mp h
    hnul name hname hmem
  obtain ⟨hname, hfilename⟩ := field.params_eq huncut
  rw [Part.entries, Part.entriesOf, hheaders]
  change appendPart decoder [] headers _ field.content = _
  unfold appendPart
  rw [hname, hfilename, htype]
  have htruthy : ∀ name : FieldName, truthy (some (wire name.text)) = some (wire name.text) :=
    fun name => Option.filter_some_pos (decide_eq_true name.wire_ne_nil)
  rw [htruthy]
  obtain ⟨name, value⟩ := field
  cases value with
  | text value =>
    change Except.ok [FormDataEntry.mk
      (usvString (decodeLatin1StringAsUtf8 decoder (latin1 (encodeText name.text))))
      (.text (usvString (decoder.decode (encodeText value.text))))] = _
    rw [decodeLatin1StringAsUtf8_latin1, usvString_decode, usvString_decode]
    rfl
  | file filename type bytes =>
    have htype : truthy (some type.text) = some type.text :=
      Option.filter_some_pos (decide_eq_true type.ne_nil)
    simp only [Field.filename, Option.map_some, htruthy, contentType]
    change Except.ok [FormDataEntry.mk
      (usvString (decodeLatin1StringAsUtf8 decoder (latin1 (encodeText name.text))))
      (.file ⟨usvString (usvString (decodeLatin1StringAsUtf8 decoder
          (latin1 (encodeText filename.text)))),
        normalizeType (normalizeType (normalizeType ((truthy (some type.text)).getD _))),
        bytes⟩)] = _
    rw [decodeLatin1StringAsUtf8_latin1, decodeLatin1StringAsUtf8_latin1,
      usvString_decode, usvString_decode,
      usvString_decode, htype, Option.getD_some, type.normal, type.normal,
      type.normal]
    rfl

end Field

/-- A unit of ASCII that is not in a text on the wire is not in what it is decoded to. -/
lemma notMem_decodeLatin1StringAsUtf8 (decoder : TextDecoder) {w : JsString} {b : UInt8}
    (hb : b ≠ 0) (hlt : b < 0x80) (hbytes : ∀ u ∈ w, u ≤ 255) (h : latin1Unit b ∉ w) :
    latin1Unit b ∉ usvString (decodeLatin1StringAsUtf8 decoder w) := by
  rw [decodeLatin1StringAsUtf8, usvString_decode,
    ← count_eq_zero, decoder.ascii _ b hb hlt, count_eq_zero, mem_map]
  rintro ⟨u, hu, rfl⟩
  have hle : u.toNat ≤ 255 := UInt16.le_iff_toNat_le.mp (hbytes u hu)
  have hunit : latin1Unit (.ofNat u.toNat) = u := by
    rw [← UInt16.toNat_inj, latin1Unit_toNat, toNat_ofNat_of_lt (by omega)]
  rw [hunit] at h
  exact h hu

variable {decoder : TextDecoder}

/-- Neither `;` nor `=` is in the name of an entry that was read, or in the name of its file. -/
lemma Cut.notMem_entry {value : JsString} {params : JsObject JsString}
    {headers : Headers} {content : Bytes} {entry : FormDataEntry} (h : Cut value params)
    (hvalue : ∀ u ∈ value, u ≤ 255)
    (hentry : appendPart decoder [] headers params content = .ok [entry]) {b : UInt8}
    (hb : b = 0x3B ∨ b = 0x3D) :
    latin1Unit b ∉ entry.name ∧ ∀ file, entry.value = .file file → latin1Unit b ∉ file.name := by
  have hne : b ≠ 0 := by rcases hb with rfl | rfl <;> decide
  have hlt : b < 0x80 := by rcases hb with rfl | rfl <;> decide
  have hcut : ∀ key w, truthy (params.get? key) = some w →
      latin1Unit b ∉ usvString (decodeLatin1StringAsUtf8 decoder w) := by
    intro key w hw
    have hget := h key w (Option.filter_eq_some_iff.mp hw).1
    refine notMem_decodeLatin1StringAsUtf8 decoder hne hlt (fun u hu => hvalue u (hget u hu).1) ?_
    intro hmem
    rcases hb with rfl | rfl
    · exact (hget _ hmem).2.1 rfl
    · exact (hget _ hmem).2.2 rfl
  unfold appendPart at hentry
  cases hname : truthy (params.get? (js "name")) with
  | none =>
    rw [hname] at hentry
    cases hentry
  | some latin1Name =>
    rw [hname] at hentry
    cases hfilename : truthy (params.get? (js "filename")) with
    | none =>
      rw [hfilename] at hentry
      cases hentry
      exact ⟨hcut _ _ hname, fun file hfile => nomatch hfile⟩
    | some latin1Filename =>
      rw [hfilename] at hentry
      cases hentry
      refine ⟨hcut _ _ hname, fun file hfile => ?_⟩
      obtain rfl := FormDataEntryValue.file.inj hfile
      have hdecoded := hcut _ _ hfilename
      rw [decodeLatin1StringAsUtf8, usvString_decode] at hdecoded
      change latin1Unit b ∉ usvString (usvString (decoder.decode _))
      rwa [usvString_decode, usvString_decode]

namespace Field

variable {decoder : TextDecoder} {field : Field}

lemma nul_of_entries (h : field.part.entries decoder = .ok [field.entry]) :
    0 ∉ field.disposition := by
  intro hnul
  rw [Part.entries, Part.entriesOf, field.parseHeaders_error hnul] at h
  cases h

lemma uncut_of_entries (h : field.part.entries decoder = .ok [field.entry]) :
    ∀ name ∈ field.names, name.Uncut := by
  obtain ⟨headers, hheaders, -⟩ := field.parseHeaders_ok (nul_of_entries h)
  rw [Part.entries, Part.entriesOf, hheaders] at h
  have hnotMem : ∀ {b : UInt8}, b = 0x3B ∨ b = 0x3D → latin1Unit b ∉ field.entry.name ∧
      ∀ file, field.entry.value = .file file → latin1Unit b ∉ file.name :=
    (cut_parseContentDisposition field.disposition).notMem_entry (fun _ => le_of_mem_disposition) h
  obtain ⟨hsemicolon, hsemicolon'⟩ := hnotMem (.inl rfl)
  obtain ⟨hequals, hequals'⟩ := hnotMem (.inr rfl)
  obtain ⟨name, value⟩ := field
  cases value with
  | text value =>
    intro name' hname'
    obtain rfl := List.mem_singleton.mp hname'
    exact ⟨hsemicolon, hequals⟩
  | file filename type bytes =>
    intro name' hname'
    simp only [names, mem_cons, not_mem_nil, or_false] at hname'
    rcases hname' with rfl | rfl
    · exact ⟨hsemicolon, hequals⟩
    · exact ⟨hsemicolon' _ rfl, hequals' _ rfl⟩

end Field

structure FieldName.Survives (decoder : TextDecoder) (name : FieldName) : Prop where
  nul : 0 ∉ name.text
  uncut : name.Uncut
  decoded : decoder.decode (encodeText name.text) = name.text

structure Field.Survives (decoder : TextDecoder) (field : Field) : Prop where
  names : ∀ name ∈ field.names, name.Survives decoder
  text : ∀ value, field.value = .text value → decoder.decode (encodeText value.text) = value.text

lemma Field.decodedEntry_eq_iff : field.decodedEntry decoder = field.entry ↔
      (∀ name ∈ field.names, decoder.decode (encodeText name.text) = name.text) ∧
      ∀ value, field.value = .text value → decoder.decode (encodeText value.text) = value.text := by
  obtain ⟨name, value⟩ := field
  cases value with
  | text value | file filename type bytes => simp [decodedEntry, entry, names]

lemma Field.entries_eq_iff :
    field.part.entries decoder = .ok [field.entry] ↔ field.Survives decoder := by
  constructor
  · intro h
    have hnul : ∀ name ∈ field.names, 0 ∉ name.text := fun name hname hmem =>
      nul_of_entries h ((@mem_disposition field 0 (by decide) (by decide)).mpr ⟨name, hname, hmem⟩)
    have huncut := uncut_of_entries h
    rw [entries_of_uncut decoder field hnul huncut] at h
    obtain ⟨hnames, htext⟩ := decodedEntry_eq_iff.mp (head_eq_of_cons_eq (Except.ok.inj h))
    exact ⟨fun name hname => ⟨hnul name hname, huncut name hname, hnames name hname⟩, htext⟩
  · intro h
    rw [entries_of_uncut decoder field (fun name hname => (h.names name hname).nul)
      fun name hname => (h.names name hname).uncut]
    rw [decodedEntry_eq_iff.mpr ⟨fun name hname => (h.names name hname).decoded, h.text⟩]

/-! ### Whole forms -/

section

variable {decoder : TextDecoder}

lemma length_entries_le {part : Part} {entries : List FormDataEntry}
    (h : part.entries decoder = .ok entries) : entries.length ≤ 1 := by
  obtain ⟨⟨headers, disposition⟩, -, happend⟩ := bind_eq_ok.mp h
  rcases @appendPart_cases decoder headers disposition with
    ⟨-, hcases⟩ | ⟨name, hcases⟩ | ⟨name, filename, type, hcases⟩
  all_goals
    cases (hcases part.content).symm.trans happend
    simp

variable {lists : List (List FormDataEntry)}

lemma length_flatten_le {parts : List Part}
    (h : parts.mapM (Part.entries decoder) = .ok lists) : lists.flatten.length ≤ parts.length := by
  induction parts generalizing lists with
  | nil =>
    cases h
    exact Nat.zero_le _
  | cons part parts ih =>
    obtain ⟨entries, more, hentries, hmore, rfl⟩ := mapM_cons_eq_ok.mp h
    have hle := length_entries_le hentries
    have hrest := ih hmore
    rw [flatten_cons, length_append, length_cons]
    omega

/-- With as many entries as there are parts, each part stands for its own. -/
lemma entries_of_mapM {fields : List Field}
    (hmap : (fields.map Field.part).mapM (Part.entries decoder) = .ok lists)
    (hflatten : lists.flatten = fields.map Field.entry) :
    ∀ field ∈ fields, field.part.entries decoder = .ok [field.entry] := by
  induction fields generalizing lists with
  | nil => simp
  | cons field fields ih =>
    obtain ⟨entries, more, hentries, hmore, rfl⟩ := mapM_cons_eq_ok.mp hmap
    have hle := length_entries_le hentries
    rw [flatten_cons] at hflatten
    match entries with
    | [] =>
      have hlength := length_flatten_le hmore
      rw [nil_append] at hflatten
      rw [hflatten, length_map, length_map] at hlength
      exact absurd hlength (Nat.not_succ_le_self _)
    | [entry] =>
      obtain ⟨rfl, hrest⟩ := List.cons.inj hflatten
      exact List.forall_mem_cons.mpr ⟨hentries, ih hmore hrest⟩
    | _ :: _ :: _ => simp at hle

variable {boundary : Boundary}

lemma parseFormData_nil (hne : boundary.text ≠ []) :
    parseFormData decoder (renderBody boundary []) boundary.text = .ok [] := by
  have hascii : ∀ u ∈ js "--" ++ boundary.text, u < 0x80 := by
    rw [forall_mem_append]
    exact ⟨ascii_of_all (by decide), boundary.ascii⟩
  have hbody : renderBody boundary [] = encodeText (js "--" ++ boundary.text ++ js "--") := by
    rw [encodeText_ascii_append hascii]
    rfl
  have hdecode : decoder.decode (renderBody boundary []) = js "--" ++ boundary.text ++ js "--" := by
    rw [hbody, decoder.decode_ascii]
    rw [forall_mem_append]
    exact ⟨hascii, ascii_of_all (by decide)⟩
  have hlength : (renderBody boundary []).length < (js "--" ++ boundary.text).length * 2 + 4 := by
    rw [← boundary.length_delimiter]
    change (boundary.delimiter ++ encodeText (js "--")).length < _
    rw [length_append, show (encodeText (js "--")).length = 2 from rfl]
    omega
  rw [parseFormData, new, if_neg hne]
  change parse decoder ⟨_, _, _⟩ = _
  rw [parse, if_pos hlength]
  exact if_pos (.inl hdecode)

lemma searchEnd_eq_none {content : Bytes}
    (h : ¬boundary.delimiter <:+: content) : searchEnd boundary.delimiter 0 content = none := by
  refine Option.eq_none_iff_forall_ne_some.mpr fun n hn => h ?_
  obtain ⟨ws, heq, -⟩ := eq_of_searchEnd (delimiter_pos boundary) hn
  rw [take_zero, nil_append] at heq
  refine ⟨ws.flatten, content.drop n, ?_⟩
  rw [← heq, take_append_drop]

end

/-- A form is read back iff each of its names has neither NUL nor `;` nor `=` in it, and what is
decoded is what was encoded. -/
theorem parseFormData_formDataToBlob_iff (decoder : TextDecoder) (random₁ random₂ : RandomText)
    (fields : List Field)
    (hcontents : ∀ field ∈ fields, ¬(boundaryOf random₁ random₂).delimiter <:+: field.content) :
    parseFormData decoder (formDataToBlob random₁.text random₂.text (fields.map Field.entry)).bytes
        (randomBoundary random₁.text random₂.text) = .ok (fields.map Field.entry) ↔
      ∀ field ∈ fields, field.Survives decoder := by
  have hne := boundaryOf_ne_nil random₁ random₂
  rw [formDataToBlob_bytes]
  change parseFormData decoder _ (boundaryOf random₁ random₂).text = _ ↔ _
  by_cases hfields : fields = []
  · subst hfields
    simp [parseFormData_nil hne]
  have hnone : ∀ part ∈ fields.map Field.part,
      searchEnd (boundaryOf random₁ random₂).delimiter 0 part.content = none := by
    rw [forall_mem_map]
    exact fun field hfield => searchEnd_eq_none (hcontents field hfield)
  rw [parseFormData_parts hne (by simpa using hfields) hnone]
  simp only [← Field.entries_eq_iff]
  constructor
  · intro h
    obtain ⟨lists, hmap, hflatten⟩ := bind_eq_ok.mp h
    exact entries_of_mapM hmap (Except.ok.inj hflatten)
  · intro h
    have hforall : List.Forall₂ (fun part entry => part.entries decoder = .ok [entry])
        (fields.map Field.part) (fields.map Field.entry) := by
      rw [forall₂_map_left_iff, forall₂_map_right_iff, forall₂_same]
      exact h
    rw [mapM_of_forall₂ hforall]
    change Except.ok ((fields.map Field.entry).map ([·])).flatten = _
    rw [← flatMap_def, flatMap_singleton']

def half : RandomText := ⟨js "0.5", List.all_iff_forall_prop.mp (by decide)⟩

def linesField : Field where
  name := ⟨js "größe", by decide, ⟨"größe".toList, by decide⟩, by decide, by decide⟩
  value := .text ⟨js "a\r\n--b", [js "a", js "--b"], by decide, by decide⟩

def fileField : Field where
  name := ⟨js "upload", by decide, ⟨"upload".toList, by decide⟩, by decide, by decide⟩
  value :=
    .file ⟨js "a b.txt", by decide, ⟨"a b.txt".toList, by decide⟩, by decide, by decide⟩
      ⟨js "text/plain", by decide, by decide, by decide⟩ [0x00, 0xFF, 0x0D, 0x0A, 0x2D, 0x2D]

theorem parseFormData_two_fields : parseFormData utf8Decoder
        (formDataToBlob half.text half.text ([linesField, fileField].map Field.entry)).bytes
        (randomBoundary half.text half.text) = .ok ([linesField, fileField].map Field.entry) := by
  refine (parseFormData_formDataToBlob_iff utf8Decoder half half [linesField, fileField] ?_).mpr ?_
  · decide +kernel
  · rw [forall_mem_cons, forall_mem_singleton]
    refine ⟨⟨?_, ?_⟩, ⟨?_, ?_⟩⟩
    · exact List.forall_mem_singleton.mpr ⟨by decide, by decide, by decide +kernel⟩
    · rintro _ ⟨⟩
      decide +kernel
    · exact List.forall_mem_cons.mpr ⟨⟨by decide, by decide, by decide +kernel⟩,
        List.forall_mem_singleton.mpr ⟨by decide, by decide, by decide +kernel⟩⟩
    · rintro _ ⟨⟩

def equalsField : Field where
  name := ⟨js "a=b", by decide, ⟨"a=b".toList, by decide⟩, by decide, by decide⟩
  value := .text ⟨js "c", [js "c"], by decide, by decide⟩

/-- A name is cut at `=`, and the quote in front of it stays. -/
theorem parseFormData_name_cut : ¬(boundaryOf half half).delimiter <:+: equalsField.content ∧
      parseFormData utf8Decoder
        (formDataToBlob half.text half.text ([equalsField].map Field.entry)).bytes
        (randomBoundary half.text half.text) = .ok [⟨js "\"a", .text (js "c")⟩] := by
  exact ⟨by decide +kernel, by decide +kernel⟩

end Deno.Fetch
