import Deno.Fetch.Multipart

/-!
# What is written for a form

What `formDataToBlob` writes is a body with one part for each of the entries.
-/

namespace Deno.Fetch

open Core List
open Web (normalizeType)

/-! ### Forms -/

structure RandomText where
  text : JsString
  chars : ∀ u ∈ text, u ∈ js "0123456789.e-"

def OneLine (s : JsString) : Prop := unit '\r' ∉ s ∧ unit '\n' ∉ s

instance (s : JsString) : Decidable (OneLine s) := inferInstanceAs (Decidable (_ ∧ _))

/-- A name or the name of a file: well formed and on one line, without quotes. -/
structure FieldName where
  text : JsString
  ne_nil : text ≠ []
  wellFormed : ∃ cs, text = encodeUtf16 cs
  line : OneLine text
  unquoted : unit '"' ∉ text

/-- A string whose lines end with CRLF. -/
structure FieldText where
  text : JsString
  lines : ∃ lines : List JsString, (∀ line ∈ lines, OneLine line) ∧
    text = (js "\r\n").intercalate lines

/-- A type as a blob has it, without spaces around it. -/
structure BlobType where
  text : JsString
  ne_nil : text ≠ []
  normal : normalizeType text = text
  trimmed : text.head? ≠ some (unit ' ') ∧ text.getLast? ≠ some (unit ' ')

inductive FieldValue where
  | text (value : FieldText)
  | file (name : FieldName) (type : BlobType) (bytes : Bytes)

structure Field where
  name : FieldName
  value : FieldValue

namespace Field

variable (field : Field)

def entry : FormDataEntry where
  name := field.name.text
  value :=
    match field.value with
    | .text value => .text value.text
    | .file name type bytes => .file ⟨name.text, type.text, bytes⟩

/-- The bytes between the blank line and the delimiter. -/
def content : Bytes :=
  match field.value with
  | .text value => encodeText value.text
  | .file _ _ bytes => bytes

def headers : Bytes :=
  encodeText (js "Content-Disposition: form-data; name=\"") ++ (encodeText field.name.text ++
    match field.value with
    | .text _ => encodeText (js "\"")
    | .file name type _ =>
      encodeText (js "\"; filename=\"") ++ (encodeText name.text ++ (encodeText (js "\"") ++
        (crlf ++ (encodeText (js "Content-Type: ") ++ encodeText type.text)))))

end Field

/-! ### What is written -/

lemma oneLine_cons {u : UInt16} {s : JsString} :
    OneLine (u :: s) ↔ (u ≠ unit '\r' ∧ u ≠ unit '\n') ∧ OneLine s := by
  rw [OneLine, OneLine, mem_cons, mem_cons]
  tauto

lemma replaceLineBreaks_of_line {s : JsString} (h : OneLine s) : replaceLineBreaks s = s := by
  fun_induction replaceLineBreaks s with
  | case1 => rfl
  | case2 u hu => exact absurd hu (not_or.mpr (oneLine_cons.mp h).1)
  | case3 u hu => rfl
  | case4 u v rest hu ih => exact absurd hu.1 (oneLine_cons.mp h).1.1
  | case5 u v rest hu hu' ih => exact absurd hu' (not_or.mpr (oneLine_cons.mp h).1)
  | case6 u v rest hu hu' ih => rw [ih (oneLine_cons.mp h).2]

lemma FieldName.escape_eq (name : FieldName) (isFilename : Bool) :
    escape name.text isFilename = name.text := by
  have hunits : name.text.flatMap escapeUnit = name.text := by
    conv_rhs => rw [← flatMap_singleton' name.text]
    refine flatMap_congr fun u hu => ?_
    have hlf : u ≠ unit '\n' := fun h => name.line.2 (h ▸ hu)
    have hcr : u ≠ unit '\r' := fun h => name.line.1 (h ▸ hu)
    have hquote : u ≠ unit '"' := fun h => name.unquoted (h ▸ hu)
    simp [escapeUnit, hlf, hcr, hquote]
  rw [escape, replaceLineBreaks_of_line name.line, ite_self, hunits]

lemma serializeLineBreaks_line {line : JsString} (h : OneLine line) (previous : Option UInt16)
    (rest : JsString) :
    ∃ last, serializeLineBreaks previous (line ++ rest) = line ++ serializeLineBreaks last rest := by
  induction line generalizing previous with
  | nil => exact ⟨previous, rfl⟩
  | cons u line ih =>
    obtain ⟨⟨hcr, hlf⟩, hline⟩ := oneLine_cons.mp h
    obtain ⟨last, hlast⟩ := ih hline (some u)
    refine ⟨last, ?_⟩
    rw [cons_append, serializeLineBreaks, if_neg (by simp [hcr, hlf]), hlast]
    rfl

lemma FieldText.serialize_eq (value : FieldText) (previous : Option UInt16) :
    serializeLineBreaks previous value.text = value.text := by
  obtain ⟨lines, hlines, heq⟩ := value.lines
  rw [heq]
  clear heq
  induction lines generalizing previous with
  | nil => rfl
  | cons line lines ih =>
    obtain ⟨hline, hlines⟩ := List.forall_mem_cons.mp hlines
    cases lines with
    | nil =>
      obtain ⟨last, hlast⟩ := serializeLineBreaks_line hline previous []
      rw [append_nil] at hlast
      rw [intercalate_singleton, hlast]
      exact append_nil line
    | cons line' lines =>
      rw [intercalate_cons_cons, append_assoc]
      obtain ⟨last, hlast⟩ := serializeLineBreaks_line hline previous
        (js "\r\n" ++ (js "\r\n").intercalate (line' :: lines))
      have hbreak : serializeLineBreaks last
          (js "\r\n" ++ (js "\r\n").intercalate (line' :: lines)) =
          js "\r\n" ++ serializeLineBreaks (some (unit '\n'))
            ((js "\r\n").intercalate (line' :: lines)) := rfl
      rw [hlast, hbreak, ih _ hlines]

/-! ### Parts -/

lemma FieldName.notMem_bytes (name : FieldName) {b : UInt8} (hlt : b < 0x80)
    (h : latin1Unit b ∉ name.text) : b ∉ encodeText name.text := by
  obtain ⟨cs, hcs⟩ := name.wellFormed
  rw [hcs] at h ⊢
  rwa [mem_encodeText_encodeUtf16 hlt]

variable (type : BlobType)

lemma BlobType.printable : ∀ u ∈ type.text, 0x20 ≤ u ∧ u ≤ 0x7E := by
  have hnormal := type.normal
  rw [normalizeType] at hnormal
  split_ifs at hnormal with hall
  · simpa using hall
  · exact absurd hnormal.symm type.ne_nil

lemma BlobType.ascii : ∀ u ∈ type.text, u < 0x80 := by
  intro u hu
  exact UInt16.lt_of_le_of_lt (type.printable u hu).2 (by decide)

lemma BlobType.bytes_printable : ∀ b ∈ encodeText type.text, 0x20 ≤ b := by
  intro b hb
  rw [encodeText_ascii type.ascii, mem_map] at hb
  obtain ⟨u, hu, rfl⟩ := hb
  have hlow : 0x20 ≤ u.toNat := UInt16.le_iff_toNat_le.mp (type.printable u hu).1
  have hhigh : u.toNat < 0x80 := UInt16.lt_iff_toNat_lt.mp (type.ascii u hu)
  rw [UInt8.le_iff_toNat_le, toNat_ofNat_of_lt (by omega)]
  exact hlow

lemma FieldName.cr_notMem (name : FieldName) : cr ∉ encodeText name.text :=
  name.notMem_bytes (by decide) name.line.1

lemma Field.noBlank_headers (field : Field) : NoBlank field.headers := by
  refine (NoBlank.append ?_ field.name.cr_notMem).append (by decide)
  cases field.value with
  | text value =>
    change NoBlank (encodeText (js "\""))
    exact noBlank_of_not_prefix (by decide)
  | file name type bytes =>
    refine ((NoBlank.append ?_ (by decide)).append name.cr_notMem).append (by decide)
    have hhead : (encodeText (js "Content-Type: ") ++ encodeText type.text).head? = some 0x43 := rfl
    refine NoBlank.crlf_append ?_ (append_ne_nil_of_left_ne_nil (by decide) _)
      (by rw [hhead]; decide)
    refine NoBlank.append ?_ (by decide)
    have hcr : cr ∉ encodeText type.text := fun h => absurd (type.bytes_printable _ h) (by decide)
    simpa using noBlank_nil.append hcr

def Field.part (field : Field) : Part where
  headers := field.headers
  content := field.content
  blank := field.noBlank_headers

lemma ascii_of_random {u : UInt16} (h : u ∈ js "0123456789.e-") :
    u < 0x80 ∧ u ≠ unit '\r' ∧ u ≠ unit '\n' := by
  have hall : ∀ u ∈ js "0123456789.e-", u < 0x80 ∧ u ≠ unit '\r' ∧ u ≠ unit '\n' :=
    List.all_iff_forall_prop.mp (by decide)
  exact hall u h

variable (random₁ random₂ : RandomText)

lemma randomBoundary_chars :
    ∀ u ∈ randomBoundary random₁.text random₂.text, u ∈ js "0123456789.e-" := by
  intro u hu
  rw [randomBoundary, padStart, mem_append] at hu
  rcases hu with hu | hu
  · rw [eq_of_mem_replicate hu]
    decide
  · have hmem := mem_of_mem_filter (mem_of_mem_drop hu)
    rcases List.mem_append.mp hmem with h | h
    · exact random₁.chars u h
    · exact random₂.chars u h

def boundaryOf : Boundary where
  text := randomBoundary random₁.text random₂.text
  ascii := fun u hu => (ascii_of_random (randomBoundary_chars random₁ random₂ u hu)).1
  line :=
    ⟨fun h => (ascii_of_random (randomBoundary_chars random₁ random₂ _ h)).2.1 rfl,
      fun h => (ascii_of_random (randomBoundary_chars random₁ random₂ _ h)).2.2 rfl⟩

lemma boundaryOf_ne_nil : (boundaryOf random₁ random₂).text ≠ [] := by
  intro h
  have hlength := congrArg List.length h
  simp only [boundaryOf, randomBoundary, padStart, length_append, length_replicate,
    length_nil] at hlength
  omega

variable (boundary : Boundary)

lemma Boundary.encodeText_append (rest : JsString) :
    encodeText (js "--" ++ (boundary.text ++ rest)) = boundary.delimiter ++ encodeText rest := by
  rw [← append_assoc, encodeText_ascii_append, delimiter]
  rw [forall_mem_append]
  exact ⟨ascii_of_all (by decide), boundary.ascii⟩

lemma Field.bytes_entryChunks (field : Field) :
    (entryChunks boundary.text field.entry).flatMap Chunk.bytes = field.part.render boundary := by
  have hstart : encodeText (js "\r\nContent-Disposition: form-data; name=\"") =
    crlf ++ encodeText (js "Content-Disposition: form-data; name=\"") := rfl
  have hcrlf : encodeText (js "\r\n") = crlf := rfl
  have hblank : encodeText (js "\r\n\r\n") = crlf ++ crlf := rfl
  have hline : ∀ u ∈ (js "\r\n").head?, isLowSurrogate u = false := by
    rintro u ⟨⟩
    decide
  obtain ⟨name, value⟩ := field
  cases value with
  | text value =>
    simp only [entryChunks, entry, name.escape_eq, value.serialize_eq, flatMap_cons,
      flatMap_nil, Chunk.bytes, append_nil, append_assoc]
    rw [boundary.encodeText_append, encodeText_ascii_append (ascii_of_all (by decide)), hstart,
      encodeText_append_ascii (ascii_of_all (by decide)) (by decide),
      encodeText_ascii_append (ascii_of_all (by decide)),
      encodeText_ascii_append (ascii_of_all (by decide)), Core.encodeText_append hline, hcrlf]
    simp [Part.render, part, headers, content]
  | file filename type bytes =>
    simp only [entryChunks, entry, name.escape_eq, filename.escape_eq, if_neg type.ne_nil,
      flatMap_cons, flatMap_nil, Chunk.bytes, append_nil, append_assoc]
    rw [boundary.encodeText_append, encodeText_ascii_append (ascii_of_all (by decide)), hstart,
      encodeText_append_ascii (ascii_of_all (by decide)) (by decide),
      encodeText_append_ascii (ascii_of_all (by decide)) (by decide),
      encodeText_ascii_append (ascii_of_all (by decide)),
      encodeText_ascii_append (ascii_of_all (by decide)), encodeText_ascii_append type.ascii, hcrlf,
      hblank]
    simp [Part.render, part, headers, content]

lemma formDataToBlob_bytes (fields : List Field) :
    (formDataToBlob random₁.text random₂.text (fields.map Field.entry)).bytes =
      renderBody (boundaryOf random₁ random₂) (fields.map Field.part) := by
  have hparts : ((fields.map Field.entry).flatMap
      (entryChunks (boundaryOf random₁ random₂).text)).flatMap Chunk.bytes =
      (fields.map Field.part).flatMap (Part.render (boundaryOf random₁ random₂)) := by
    rw [flatMap_assoc, flatMap_map, flatMap_map]
    exact flatMap_congr fun field _ => field.bytes_entryChunks _
  have hlast : [Chunk.text (js "--" ++ (boundaryOf random₁ random₂).text ++ js "--")].flatMap
      Chunk.bytes = (boundaryOf random₁ random₂).delimiter ++ encodeText (js "--") := by
    rw [← Boundary.encodeText_append, append_assoc]
    exact append_nil _
  rw [renderBody, append_assoc, ← hparts, ← hlast, ← flatMap_append]
  rfl

end Deno.Fetch
