import Deno.Core.JsObject
import Deno.Fetch.Headers
import Deno.Web.Blob

/-!
# Form data

The entries of a form, how they are written as `multipart/form-data`, and the parser: one loop over
the bytes of the body.
-/

namespace Deno.Fetch

open Core
open Web (normalizeType)

/-! ### Entries -/

variable (s : JsString)

/-- A string without surrogates outside of pairs. -/
def usvString : JsString := encodeUtf16 (scalars s)

structure File where
  name : JsString
  type : JsString
  bytes : Bytes
  deriving DecidableEq

def File.new (bytes : Bytes) (fileName type : JsString) : File where
  name := usvString fileName
  type := normalizeType type
  bytes := bytes

inductive FormDataEntryValue where
  | text (value : JsString)
  | file (value : File)
  deriving DecidableEq

structure FormDataEntry where
  name : JsString
  value : FormDataEntryValue
  deriving DecidableEq

abbrev FormData := List FormDataEntry

/-- What is appended: a string, or a blob that is a file or not. -/
inductive FormDataInput where
  | text (value : JsString)
  | blob (type : JsString) (bytes : Bytes)
  | file (value : File)

def FormDataInput.toValue : FormDataInput → FormDataEntryValue
  | .text value => .text value
  | .blob type bytes => .file (File.new bytes (js "blob") type)
  | .file value => .file value

def createEntry (name : JsString) (value : FormDataInput) (filename : Option JsString) :
    FormDataEntry where
  name := name
  value :=
    match value.toValue, filename with
    | .file value, some filename => .file (File.new value.bytes filename value.type)
    | value, _ => value

def FormData.append (formData : FormData) (name : JsString) :
    FormDataInput → Option JsString → FormData
  | .text value, _ => formData ++ [createEntry (usvString name) (.text (usvString value)) none]
  | value, filename => formData ++ [createEntry (usvString name) value (filename.map usvString)]

/-! ### The writer -/

/-- Replace the matches of `ESCAPE_FILENAME_PATTERN`. -/
def replaceLineBreaks (s : JsString) : JsString :=
  match s with
  | [] => []
  | [u] => if u = unit '\r' ∨ u = unit '\n' then js "\r\n" else [u]
  | u :: v :: rest =>
    if u = unit '\r' ∧ v = unit '\n' then js "\r\n" ++ replaceLineBreaks rest
    else if u = unit '\r' ∨ u = unit '\n' then js "\r\n" ++ replaceLineBreaks (v :: rest)
    else u :: replaceLineBreaks (v :: rest)

/-- `ESCAPE_MAP`, for the matches of `ESCAPE_PATTERN`. -/
def escapeUnit (u : UInt16) : JsString :=
  if u = unit '\n' then js "%0A"
  else if u = unit '\r' then js "%0D"
  else if u = unit '"' then js "%22"
  else [u]

def escape (str : JsString) (isFilename : Bool) : JsString :=
  (if isFilename then str else replaceLineBreaks str).flatMap escapeUnit

/-- Replace the matches of `FORM_DETA_SERIALIZE_PATTERN` behind a unit. -/
def serializeLineBreaks (previous : Option UInt16) (s : JsString) : JsString :=
  match s with
  | [] => []
  | u :: rest =>
    if (u = unit '\r' ∧ rest.head? ≠ some (unit '\n')) ∨
        (u = unit '\n' ∧ previous ≠ some (unit '\r')) then
      js "\r\n" ++ serializeLineBreaks (some u) rest
    else u :: serializeLineBreaks (some u) rest

/-- `String.prototype.padStart` with one unit. -/
def padStart (targetLength : ℕ) (u : UInt16) : JsString :=
  List.replicate (targetLength - s.length) u ++ s

variable (random₁ random₂ : JsString)

/-- The boundary that is made from the texts of two random numbers. -/
def randomBoundary : JsString :=
  let digits := (random₁ ++ random₂).filter (· ≠ unit '.')
  padStart (digits.drop (digits.length - 28)) 32 (unit '-')

inductive Chunk where
  | text (value : JsString)
  | file (value : File)

def Chunk.bytes : Chunk → Bytes
  | .text value => encodeText value
  | .file value => value.bytes

def entryChunks (boundary : JsString) (entry : FormDataEntry) : List Chunk :=
  let start := js "--" ++ boundary ++ js "\r\nContent-Disposition: form-data; name=\""
  match entry.value with
  | .text value =>
    [.text (start ++ escape entry.name false ++ js "\"" ++ js "\r\n" ++ js "\r\n" ++
      serializeLineBreaks none value ++ js "\r\n")]
  | .file value =>
    [.text (start ++ escape entry.name false ++ js "\"; filename=\"" ++ escape value.name true ++
      js "\"" ++ js "\r\n" ++ js "Content-Type: " ++
      (if value.type = [] then js "application/octet-stream" else value.type) ++ js "\r\n\r\n"),
      .file value,
      .text (js "\r\n")]

structure Blob where
  type : JsString
  bytes : Bytes

def formDataToBlob (formData : FormData) : Blob :=
  let boundary := randomBoundary random₁ random₂
  let chunks := formData.flatMap (entryChunks boundary) ++ [.text (js "--" ++ boundary ++ js "--")]
  { type := normalizeType (js "multipart/form-data; boundary=" ++ boundary)
    bytes := chunks.flatMap Chunk.bytes }

/-! ### The headers of a part -/

def cr : UInt8 := 0x0D

def lf : UInt8 := 0x0A

def crlf : Bytes := [cr, lf]

/-- `String.prototype.split` with the separator of lines. -/
def splitLines (s : JsString) : List JsString :=
  match s with
  | [] => [[]]
  | [u] => [[u]]
  | u :: v :: rest =>
    if u = unit '\r' ∧ v = unit '\n' then [] :: splitLines rest
    else
      match splitLines (v :: rest) with
      | line :: lines => (u :: line) :: lines
      | [] => [[u]]

/-- White space and line terminators. -/
def isTrimmed (u : UInt16) : Bool :=
  (0x09 ≤ u && u ≤ 0x0D) || u = 0x20 || u = 0xA0 || u = 0x1680 || (0x2000 ≤ u && u ≤ 0x200A) ||
    u = 0x2028 || u = 0x2029 || u = 0x202F || u = 0x205F || u = 0x3000 || u = 0xFEFF

def trim : JsString := (s.dropWhile isTrimmed).rdropWhile isTrimmed

/-- The group of `QUOTE_CONTENT_PATTERN`, or the string if it is not quoted. -/
def unquote : JsString :=
  match s with
  | [] => []
  | c :: rest =>
    if c = unit '"' ∧ rest.getLast? = some (unit '"') ∧ unit '"' ∉ rest.dropLast then rest.dropLast
    else s

def setParameter (params : JsObject JsString) (value : JsString) : JsObject JsString :=
  match (trim value).splitOn (unit '=') with
  | key :: content :: _ => params.set key (unquote content)
  | _ => params

def parseContentDisposition (value : JsString) : JsObject JsString :=
  ((value.splitOn (unit ';')).drop 1).foldl setParameter .empty

/-- Set a header from a line; a line without a colon is skipped. -/
def setRawHeader (headers : Headers) (rawHeader : JsString) : Except AnyError Headers :=
  match indexOf (unit ':') rawHeader with
  | none => .ok headers
  | some sepIndex => headers.set (rawHeader.take sepIndex) (rawHeader.drop (sepIndex + 1))

def parseHeaders (headersText : JsString) : Except AnyError (Headers × JsObject JsString) := do
  let headers ← (splitLines headersText).foldlM setRawHeader {}
  let disposition ← headers.get (js "Content-Disposition")
  return (headers, parseContentDisposition (disposition.getD []))

/-! ### The parser -/

inductive ParserPhase where
  | start
  | headers
  | content
  | delimiter
  deriving DecidableEq

structure ParserState where
  formData : FormData
  headerText : JsString
  boundaryIndex : ℕ
  state : ParserPhase
  fileStart : ℕ

structure MultipartParser where
  boundary : JsString
  body : Bytes
  boundaryChars : Bytes

def MultipartParser.new (body : Bytes) (boundary : JsString) : Except AnyError MultipartParser :=
  if boundary = [] then .error (typeError "multipart/form-data must provide a boundary")
  else .ok ⟨js "--" ++ boundary, body, encodeText (js "--" ++ boundary)⟩

def truthy (value : Option JsString) : Option JsString := value.filter (· ≠ [])

namespace MultipartParser

variable (decoder : TextDecoder)

/-- The bytes of a string in Latin-1 are UTF-8. -/
def decodeLatin1StringAsUtf8 (latin1String : JsString) : JsString :=
  decoder.decode (latin1String.map fun u => .ofNat u.toNat)

/-- Append the entry of a part; a part without a name is skipped. -/
def appendPart (formData : FormData) (headers : Headers) (disposition : JsObject JsString)
    (content : Bytes) : Except AnyError FormData :=
  match truthy (disposition.get? (js "name")) with
  | none => .ok formData
  | some latin1Name => do
    let name := decodeLatin1StringAsUtf8 decoder latin1Name
    match truthy (disposition.get? (js "filename")) with
    | none => return formData.append name (.text (decoder.decode content)) none
    | some latin1Filename =>
      let contentType ← headers.get (js "Content-Type")
      let type := (truthy contentType).getD (js "application/octet-stream")
      return formData.append name (.blob (normalizeType type) content)
        (some (decodeLatin1StringAsUtf8 decoder latin1Filename))

variable (parser : MultipartParser)

def isNewLine (i : ℕ) (byte : UInt8) : Bool :=
  byte = lf && i ≠ 0 && parser.body[i - 1]? = some cr

def finishPart (i : ℕ) (s : ParserState) : Except AnyError ParserState := do
  let (headers, disposition) ← parseHeaders s.headerText
  let content := slice parser.body s.fileStart (i - s.boundaryIndex - 1 - s.fileStart)
  let formData ← appendPart decoder s.formData headers disposition content
  return { s with formData, state := .delimiter, boundaryIndex := 0, headerText := [] }

def step (i : ℕ) (byte : UInt8) (s : ParserState) : Except AnyError ParserState :=
  match s.state with
  | .start => .ok (if parser.isNewLine i byte then { s with state := .headers } else s)
  | .headers =>
    let s := { s with headerText := s.headerText ++ [latin1Unit byte] }
    if parser.isNewLine i byte ∧ parser.body[i + 1]? = some cr ∧ parser.body[i + 2]? = some lf then
      .ok { s with state := .content, fileStart := i + 3 }
    else .ok s
  | .content =>
    let s :=
      { s with
        boundaryIndex :=
          if parser.boundaryChars[s.boundaryIndex]? ≠ some byte then 0 else s.boundaryIndex + 1 }
    if s.boundaryIndex ≥ parser.boundary.length then parser.finishPart decoder i s else .ok s
  | .delimiter => .ok (if parser.isNewLine i byte then { s with state := .headers } else s)

def loop : ℕ → Bytes → ParserState → Except AnyError ParserState
  | _, [], s => .ok s
  | i, byte :: rest, s => do
    let s ← parser.step decoder i byte s
    loop (i + 1) rest s

def initialState : ParserState where
  formData := []
  headerText := []
  boundaryIndex := 0
  state := .start
  fileStart := 0

def parse : Except AnyError FormData :=
  if parser.body.length < parser.boundary.length * 2 + 4 then
    let decodedBody := decoder.decode parser.body
    let lastBoundary := parser.boundary ++ js "--"
    if decodedBody = lastBoundary ∨ decodedBody = lastBoundary ++ js "\r\n" then .ok []
    else .error (typeError "Unable to parse body as form data.")
  else ParserState.formData <$> parser.loop decoder 0 parser.body initialState

end MultipartParser

def parseFormData (decoder : TextDecoder) (body : Bytes) (boundary : JsString) :
    Except AnyError FormData := do
  let parser ← MultipartParser.new body boundary
  parser.parse decoder

end Deno.Fetch
