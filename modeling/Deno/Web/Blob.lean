import Deno.Core.TextDecoder
import Deno.Web.BlobStore
import Deno.Web.Infra

/-!
# Blobs

A blob has a list of parts: references to parts in the store, and other blobs. Its size is kept
beside them, as a number.
-/

namespace Deno.Web

open Core

/-- The type of a blob: only printable ASCII is kept, in lower case. -/
def normalizeType (str : JsString) : JsString :=
  if str.all fun c => 0x20 ≤ c && c ≤ 0x7E then str.map lowerUnit else []

inductive EndingType where
  | transparent
  | native
  deriving DecidableEq

/-- `nativeLineEnding`; the source has `isWindows = false`. -/
def nativeLineEnding : JsString := js "\n"

/-- Each line break becomes the native one: CRLF, CR or LF. -/
def convertLineEndingsToNative (s : JsString) : JsString :=
  match s with
  | [] => []
  | [u] => if u = unit '\r' ∨ u = unit '\n' then nativeLineEnding else [u]
  | u :: v :: rest =>
    if u = unit '\r' then
      if v = unit '\n' then nativeLineEnding ++ convertLineEndingsToNative rest
      else nativeLineEnding ++ convertLineEndingsToNative (v :: rest)
    else if u = unit '\n' then nativeLineEnding ++ convertLineEndingsToNative (v :: rest)
    else u :: convertLineEndingsToNative (v :: rest)

def encodeString (endings : EndingType) (text : JsString) : Bytes :=
  encodeText (if endings = .native then convertLineEndingsToNative text else text)

/-- A part of a blob: a `BlobReference`, or a blob with its type, its size and its parts. -/
inductive BlobNode (Uuid : Type) where
  | reference (id : Uuid) (size : ℤ)
  | blob (type : JsString) (size : ℤ) (parts : List (BlobNode Uuid))

def BlobNode.size {Uuid : Type} : BlobNode Uuid → ℤ
  | .reference _ size => size
  | .blob _ size _ => size

structure Blob (Uuid : Type) where
  type : JsString
  size : ℤ
  parts : List (BlobNode Uuid)

def Blob.node {Uuid : Type} (blob : Blob Uuid) : BlobNode Uuid := .blob blob.type blob.size blob.parts

inductive BlobPartInput (Uuid : Type) where
  | arrayBuffer (buffer : Bytes)
  | view (buffer : Bytes) (byteOffset byteLength : ℕ)
      (within : byteOffset + byteLength ≤ buffer.length)
  | blob (blob : Blob Uuid)
  | string (text : JsString)

section

variable {Uuid Url : Type} [DecidableEq Uuid] [DecidableEq Url] (uuids : UuidSource Uuid)
  (urls : UrlLibrary Uuid Url)

/-! ### The constructor -/

section

variable (store : BlobStore Uuid Url)

def fromUint8Array (data : Bytes) : BlobNode Uuid × BlobStore Uuid Url :=
  let (id, store) := store.opBlobCreatePart uuids data
  (.reference id data.length, store)

/-- A part, and what it adds to the size. -/
def processBlobPart (endings : EndingType) (store : BlobStore Uuid Url) :
    BlobPartInput Uuid → BlobNode Uuid × ℤ × BlobStore Uuid Url
  | .arrayBuffer buffer =>
    let (part, store) := fromUint8Array uuids store buffer
    (part, buffer.length, store)
  | .view buffer byteOffset byteLength _ =>
    let (part, store) := fromUint8Array uuids store (slice buffer byteOffset byteLength)
    (part, byteLength, store)
  | .blob blob => (blob.node, blob.size, store)
  | .string text =>
    let chunk := encodeString endings text
    let (part, store) := fromUint8Array uuids store chunk
    (part, chunk.length, store)

def processBlobParts (endings : EndingType) (size : ℤ) (store : BlobStore Uuid Url) :
    List (BlobPartInput Uuid) → List (BlobNode Uuid) × ℤ × BlobStore Uuid Url
  | [] => ([], size, store)
  | input :: rest =>
    let (part, added, store) := processBlobPart uuids endings store input
    let (parts, size, store) := processBlobParts endings (addNumbers size added) store rest
    (part :: parts, size, store)

def Blob.new (blobParts : List (BlobPartInput Uuid))
    (endings : EndingType) (type : JsString) : Blob Uuid × BlobStore Uuid Url :=
  let (parts, size, store) := processBlobParts uuids endings 0 store blobParts
  (⟨normalizeType type, size, parts⟩, store)

/-! ### Slices -/

/-- The conversion to a `long long` that clamps. -/
def clampLongLong (x : ℤ) : ℤ := min (max x (-maxSafeInteger)) maxSafeInteger

/-- Where a bound is, counted from the start. -/
def relativeBound (size : ℤ) (bound : Option ℤ) (missing : ℤ) : ℤ :=
  match bound with
  | none => missing
  | some bound => if bound < 0 then max (addNumbers size bound) 0 else min bound size

def sliceReference (id : Uuid) (start stop : ℤ) :
    Except AnyError (BlobNode Uuid × BlobStore Uuid Url) := do
  let size := subNumbers stop start
  let (id, store) ← store.opBlobSlicePart uuids id start size
  return (.reference id size, store)

end

mutual

def sliceNode (store : BlobStore Uuid Url) (start stop : ℤ) :
    BlobNode Uuid → Except AnyError (BlobNode Uuid × BlobStore Uuid Url)
  | .reference id _ => sliceReference uuids store id start stop
  | .blob _ size parts => do
    let relativeStart := relativeBound size (some (clampLongLong start)) 0
    let relativeEnd := relativeBound size (some (clampLongLong stop)) size
    let span := max (subNumbers relativeEnd relativeStart) 0
    let (blobParts, store) ← sliceParts store relativeStart relativeEnd span 0 parts
    return (.blob (normalizeType []) span blobParts, store)

def sliceParts (store : BlobStore Uuid Url) (relativeStart relativeEnd span added : ℤ) :
    List (BlobNode Uuid) → Except AnyError (List (BlobNode Uuid) × BlobStore Uuid Url)
  | [] => return ([], store)
  | part :: parts =>
    if added ≥ span then return ([], store)
    else if relativeStart ≠ 0 ∧ part.size ≤ relativeStart then
      sliceParts store (subNumbers relativeStart part.size) (subNumbers relativeEnd part.size) span
        added parts
    else do
      let (chunk, store) ← sliceNode store relativeStart (min part.size relativeEnd) part
      let (blobParts, store) ← sliceParts store 0 (subNumbers relativeEnd part.size) span
        (addNumbers added chunk.size) parts
      return (chunk :: blobParts, store)

end

def Blob.slice (store : BlobStore Uuid Url) (blob : Blob Uuid) (start stop : Option ℤ)
    (contentType : Option JsString) : Except AnyError (Blob Uuid × BlobStore Uuid Url) := do
  let relativeStart := relativeBound blob.size (start.map clampLongLong) 0
  let relativeEnd := relativeBound blob.size (stop.map clampLongLong) blob.size
  let span := max (subNumbers relativeEnd relativeStart) 0
  let (blobParts, store) ← sliceParts uuids store relativeStart relativeEnd span 0 blob.parts
  let relativeContentType := (contentType.map normalizeType).getD []
  return (⟨normalizeType relativeContentType, span, blobParts⟩, store)

/-! ### Reading -/

section

variable (store : BlobStore Uuid Url)

mutual

/-- The chunks of a part; a blob gives only those with bytes. -/
def streamNode : BlobNode Uuid → Except AnyError (List Bytes)
  | .reference id _ => do
    let chunk ← store.opBlobReadPart id
    return [chunk]
  | .blob _ _ parts => do
    let chunks ← toIterator parts
    return chunks.filter (· ≠ [])

/-- `toIterator`: the chunks of the parts, one part after the other. -/
def toIterator : List (BlobNode Uuid) → Except AnyError (List Bytes)
  | [] => return []
  | part :: parts => do
    let chunks ← streamNode part
    let rest ← toIterator parts
    return chunks ++ rest

end

variable (blob : Blob Uuid)

def Blob.stream : Except AnyError (List Bytes) := streamNode store blob.node

def setBytes (bytes value : Bytes) (offset : ℕ) : Except AnyError Bytes :=
  if offset + value.length ≤ bytes.length then .ok (writeAt bytes offset value)
  else .error (.custom "RangeError" "offset is out of bounds")

def fillBytes : Bytes → ℕ → List Bytes → Except AnyError Bytes
  | bytes, _, [] => return bytes
  | bytes, offset, value :: rest =>
    if value.length > 0 then do
      let bytes ← setBytes bytes value offset
      fillBytes bytes (offset + value.length) rest
    else fillBytes bytes offset rest

def Blob.u8Array (size : ℤ) : Except AnyError Bytes := do
  let bytes := List.replicate size.toNat 0
  let chunks ← toIterator store blob.parts
  fillBytes bytes 0 chunks

def Blob.text (decoder : TextDecoder) (blob : Blob Uuid) : Except AnyError JsString := do
  let buffer ← blob.u8Array store blob.size
  return decoder.decode buffer

def Blob.arrayBuffer : Except AnyError Bytes := blob.u8Array store blob.size

end

/-! ### URLs -/

mutual

def nodeIds : BlobNode Uuid → List Uuid
  | .reference id _ => [id]
  | .blob _ _ parts => partIds parts

def partIds : List (BlobNode Uuid) → List Uuid
  | [] => []
  | part :: parts => nodeIds part ++ partIds parts

end

def Blob.getParts (blob : Blob Uuid) : List Uuid := partIds blob.parts

def createObjectURL (maybeLocation : Option JsString) (store : BlobStore Uuid Url)
    (blob : Blob Uuid) : Except AnyError (JsString × BlobStore Uuid Url) :=
  store.opBlobCreateObjectUrl uuids urls maybeLocation blob.type blob.getParts

/-- The new blob has references to the parts. -/
def blobFromObjectUrl (store : BlobStore Uuid Url) (url : JsString) :
    Except AnyError (Option (Blob Uuid) × BlobStore Uuid Url) := do
  let (blobData, store) ← store.opBlobFromObjectUrl uuids urls url
  match blobData with
  | none => return (none, store)
  | some (mediaType, parts) =>
    let totalSize := parts.foldl (fun totalSize part => addNumbers totalSize part.2) 0
    return (some ⟨mediaType, totalSize, parts.map fun part => .reference part.1 part.2⟩, store)

/-! ### Programs -/

/-- The blobs and the URLs that a program has, in the order in which it got them. -/
structure Runtime (Uuid Url : Type) where
  store : BlobStore Uuid Url
  blobs : List (Blob Uuid)
  objectUrls : List JsString

/-- A part that a program gives; an earlier blob is named by its index. -/
inductive BlobPartArgument where
  | arrayBuffer (buffer : Bytes)
  | view (buffer : Bytes) (byteOffset byteLength : ℕ)
      (within : byteOffset + byteLength ≤ buffer.length)
  | blob (index : ℕ)
  | string (text : JsString)

/-- What a program does. The garbage collector takes ids that no blob of the program needs. -/
inductive BlobCall (Uuid : Type) where
  | new (parts : List BlobPartArgument) (endings : EndingType) (type : JsString)
  | slice (index : ℕ) (start stop : Option ℤ) (contentType : Option JsString)
  | createObjectURL (index : ℕ)
  | fromObjectURL (index : ℕ)
  | drop (index : ℕ)
  | collect (id : Uuid)

namespace Runtime

def initial : Runtime Uuid Url := ⟨.empty, [], []⟩

def emptyBlob : Blob Uuid := ⟨[], 0, []⟩

variable (runtime : Runtime Uuid Url)

/-- The blob under an index; under any other index it is an empty one. -/
def blobAt (index : ℕ) : Blob Uuid := runtime.blobs.getD index emptyBlob

def input : BlobPartArgument → BlobPartInput Uuid
  | .arrayBuffer buffer => .arrayBuffer buffer
  | .view buffer byteOffset byteLength within => .view buffer byteOffset byteLength within
  | .blob index => .blob (runtime.blobAt index)
  | .string text => .string text

variable (maybeLocation : Option JsString)

def step (runtime : Runtime Uuid Url) : BlobCall Uuid → Except AnyError (Runtime Uuid Url)
  | .new parts endings type =>
    let (blob, store) := Blob.new uuids runtime.store (parts.map runtime.input) endings type
    return { runtime with store, blobs := runtime.blobs ++ [blob] }
  | .slice index start stop contentType => do
    let (blob, store) ← (runtime.blobAt index).slice uuids runtime.store start stop contentType
    return { runtime with store, blobs := runtime.blobs ++ [blob] }
  | .createObjectURL index => do
    let (url, store) ← createObjectURL uuids urls maybeLocation runtime.store (runtime.blobAt index)
    return { runtime with store, objectUrls := runtime.objectUrls ++ [url] }
  | .fromObjectURL index =>
    match runtime.objectUrls[index]? with
    | none => return runtime
    | some url => do
      let (blob, store) ← blobFromObjectUrl uuids urls runtime.store url
      return { runtime with store, blobs := runtime.blobs ++ blob.toList }
  | .drop index => return { runtime with blobs := runtime.blobs.set index emptyBlob }
  | .collect id =>
    if ∃ blob ∈ runtime.blobs, id ∈ blob.getParts then return runtime
    else return { runtime with store := runtime.store.removePart id }

def run (calls : List (BlobCall Uuid)) : Except AnyError (Runtime Uuid Url) :=
  calls.foldlM (step uuids urls maybeLocation) initial

end Runtime

end

end Deno.Web
