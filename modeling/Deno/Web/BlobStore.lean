import Deno.Core.Buffer
import Deno.Core.JsString
import Deno.Core.Number
import Deno.Error

/-!
# The store of blob parts

The bytes of blobs are kept under ids, as bytes in memory or as a slice of another part. A slice and
the URL of a blob keep the parts themselves, so they stay when an id is removed.
-/

namespace Deno.Web

open Core

inductive BlobPart where
  | inMemory (bytes : Bytes)
  | sliced (part : BlobPart) (start len : ℕ)
  deriving DecidableEq

namespace BlobPart

def size : BlobPart → ℕ
  | .inMemory bytes => bytes.length
  | .sliced _ _ len => len

/-- Reading a slice that is not within its part panics. -/
def read : BlobPart → Except AnyError Bytes
  | .inMemory bytes => .ok bytes
  | .sliced part start len => do
    let original ← part.read
    if start + len ≤ original.length then return slice original start len
    else .error (.panic "range end index out of range for slice")

end BlobPart

structure StoredBlob where
  mediaType : JsString
  parts : List BlobPart

namespace StoredBlob

def size (blob : StoredBlob) : ℕ := blob.parts.foldl (fun total part => total + part.size) 0

/-- Reading all parts panics if they do not have the size. -/
def readAll (blob : StoredBlob) : Except AnyError Bytes := do
  let bytes ← blob.parts.foldlM (fun bytes part => do
    let chunk ← part.read
    return bytes ++ chunk) []
  if bytes.length = blob.size then return bytes
  else .error (.panic "assertion `left == right` failed")

end StoredBlob

/-- Where ids come from: none is drawn twice. -/
structure UuidSource (Uuid : Type) where
  newV4 : ℕ → Uuid
  injective : Function.Injective newV4

/-- URLs. The URL of a blob has an id in its path, and no fragment. -/
structure UrlLibrary (Uuid Url : Type) where
  parse : JsString → Except AnyError Url
  toString : Url → JsString
  scheme : Url → JsString
  withoutFragment : Url → Url
  objectUrl : JsString → Uuid → Url
  parse_toString : ∀ url, parse (toString url) = .ok url
  scheme_objectUrl : ∀ origin id, scheme (objectUrl origin id) = js "blob"
  withoutFragment_objectUrl : ∀ origin id,
    withoutFragment (objectUrl origin id) = objectUrl origin id
  objectUrl_injective : ∀ origin, Function.Injective (objectUrl origin)

structure BlobStore (Uuid Url : Type) where
  /-- How many ids have been drawn. -/
  drawn : ℕ
  parts : Uuid → Option BlobPart
  objectUrls : Url → Option StoredBlob

namespace BlobStore

variable {Uuid Url : Type} [DecidableEq Uuid] [DecidableEq Url] (uuids : UuidSource Uuid)
  (urls : UrlLibrary Uuid Url) (store : BlobStore Uuid Url)

def empty : BlobStore Uuid Url := ⟨0, fun _ => none, fun _ => none⟩

def insertPart (part : BlobPart) : Uuid × BlobStore Uuid Url :=
  let id := uuids.newV4 store.drawn
  (id, { store with
    drawn := store.drawn + 1
    parts := Function.update store.parts id (some part) })

variable (id : Uuid)

def getPart : Option BlobPart := store.parts id

def removePart : BlobStore Uuid Url :=
  { store with parts := Function.update store.parts id none }

def getObjectUrl (url : Url) : Option StoredBlob := store.objectUrls (urls.withoutFragment url)

def insertObjectUrl (blob : StoredBlob) (maybeLocation : Option JsString) : Url × BlobStore Uuid Url :=
  let origin := maybeLocation.getD (js "null")
  let url := urls.objectUrl origin (uuids.newV4 store.drawn)
  (url, { store with
    drawn := store.drawn + 1
    objectUrls := Function.update store.objectUrls url (some blob) })

/-! ### Ops -/

def opBlobCreatePart (data : Bytes) : Uuid × BlobStore Uuid Url :=
  store.insertPart uuids (.inMemory data)

def findPart : Except AnyError BlobPart :=
  match store.getPart id with
  | none => .error (typeError "Blob part not found")
  | some part => .ok part

/-- Options that are no natural numbers are not deserialized. -/
def opBlobSlicePart (start len : ℤ) : Except AnyError (Uuid × BlobStore Uuid Url) :=
  if start < 0 ∨ len < 0 then .error (typeError "expected usize")
  else do
    let part ← store.findPart id
    if start.toNat + len.toNat > part.size then
      .error (typeError "start + len can not be larger than blob part size")
    else return store.insertPart uuids (.sliced part start.toNat len.toNat)

def opBlobReadPart : Except AnyError Bytes := do
  let part ← store.findPart id
  part.read

def opBlobCreateObjectUrl (maybeLocation : Option JsString) (mediaType : JsString)
    (partIds : List Uuid) : Except AnyError (JsString × BlobStore Uuid Url) := do
  let parts ← partIds.mapM store.findPart
  let (url, store) := store.insertObjectUrl uuids urls ⟨mediaType, parts⟩ maybeLocation
  return (urls.toString url, store)

def insertParts : BlobStore Uuid Url → List BlobPart → List (Uuid × ℕ) × BlobStore Uuid Url
  | store, [] => ([], store)
  | store, part :: parts =>
    let (id, store) := store.insertPart uuids part
    let (ids, store) := insertParts store parts
    ((id, part.size) :: ids, store)

def opBlobFromObjectUrl (url : JsString) :
    Except AnyError (Option (JsString × List (Uuid × ℕ)) × BlobStore Uuid Url) := do
  let url ← urls.parse url
  if urls.scheme url ≠ js "blob" then return (none, store)
  else
    match store.getObjectUrl urls url with
    | some blob =>
      let (parts, store) := insertParts uuids store blob.parts
      return (some (blob.mediaType, parts), store)
    | none => return (none, store)

end BlobStore

end Deno.Web
