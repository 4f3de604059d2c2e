import Deno.Core.Machine
import Deno.Core.Split
import Deno.Core.Utf8
import Deno.Core.Whitespace
import Deno.Error

/-!
# The web cache

An entry of the cache is a row of a table with the headers of its request and its response, and a
file with the body of the response. A query is answered with the entry for its URL, if the headers
that the response varies on are those of the request.
-/

namespace Deno.Cache

open Core

/-! ### Headers -/

abbrev HeaderPair := Bytes × Bytes

/-- A header as requests and responses have them: the name is a token, and the value is on one
line. -/
structure Header where
  name : Bytes
  value : Bytes
  name_ascii : ∀ b ∈ name, b < 0x80
  name_line : 13 ∉ name
  value_line : 13 ∉ value

def Header.pair (header : Header) : HeaderPair := (header.name, header.value)

def serializeHeaders (headers : List HeaderPair) : Bytes :=
  headers.flatMap fun (name, value) => name ++ [13, 10] ++ value ++ [13, 10]

/-- The loop over the bytes: those since the last end of a line, the name that was read, and the
headers so far. -/
def deserializeLoop : Bytes → Bytes → Option Bytes → List HeaderPair →
    Except AnyError (List HeaderPair)
  | 13 :: 10 :: rest, piece, none, headers => deserializeLoop rest [] (some piece) headers
  | 13 :: 10 :: rest, piece, some name, headers =>
    deserializeLoop rest [] none (headers ++ [(name, piece)])
  | b :: rest, piece, name, headers =>
    deserializeLoop rest (piece ++ [b]) name headers
  | [], piece, name, headers =>
    if name.isSome then .error (.panic "assertion failed: piece.is_none()")
    else if piece ≠ [] then .error (.panic "assertion `left == right` failed")
    else .ok headers

def deserializeHeaders (serialized : Bytes) : Except AnyError (List HeaderPair) :=
  deserializeLoop serialized [] none []

/-! ### The header `Vary` -/

def eqIgnoreAsciiCase (a b : List Char) : Bool := a.map Char.toLower == b.map Char.toLower

def getHeader (name : List Char) (headers : List HeaderPair) : Option Bytes :=
  (headers.find? fun header => (fromUtf8 header.1).any (eqIgnoreAsciiCase · name)).map (·.2)

/-- `str::to_lowercase`. -/
structure Lowercase where
  toLowercase : List Char → List Char
  ascii : ∀ text : List Char, (∀ c ∈ text, c.toNat < 0x80) →
    toLowercase text = text.map Char.toLower

variable (lower : Lowercase)

def getHeadersFromVaryHeader (varyHeader : List Char) : List (List Char) :=
  (varyHeader.splitOn ',').map fun s => lower.toLowercase (trim s)

def varyHeaderMatches (varyHeader : Bytes)
    (queryRequestHeaders cachedRequestHeaders : List HeaderPair) : Bool :=
  match fromUtf8 varyHeader with
  | none => false
  | some varyHeader => (getHeadersFromVaryHeader lower varyHeader).all fun header =>
      getHeader header queryRequestHeaders = getHeader header cachedRequestHeaders

/-! ### The table -/

structure Row where
  cacheId : ℤ
  requestUrl : List Char
  requestHeaders : Bytes
  responseHeaders : Bytes
  responseBodyKey : Option (List Char)
  responseStatus : ℕ
  responseStatusText : List Char

/-- The rows, with one for a cache and a URL at most, and the files with bodies. -/
structure Store where
  rows : List Row
  files : List (List Char)

structure CachePutRequest where
  cacheId : ℤ
  requestUrl : List Char
  requestHeaders : List Header
  responseHeaders : List Header
  responseStatus : ℕ
  responseStatusText : List Char

def CachePutRequest.row (put : CachePutRequest) (responseBodyKey : Option (List Char)) : Row :=
  { cacheId := put.cacheId
    requestUrl := put.requestUrl
    requestHeaders := serializeHeaders (put.requestHeaders.map Header.pair)
    responseHeaders := serializeHeaders (put.responseHeaders.map Header.pair)
    responseBodyKey := responseBodyKey
    responseStatus := put.responseStatus
    responseStatusText := put.responseStatusText }

structure CacheMatchResponseMeta where
  responseStatus : ℕ
  responseStatusText : List Char
  requestHeaders : List HeaderPair
  responseHeaders : List HeaderPair
  deriving DecidableEq

namespace Store

variable (store : Store)

def find (cacheId : ℤ) (requestUrl : List Char) : Option Row :=
  store.rows.find? fun row => row.cacheId = cacheId ∧ row.requestUrl = requestUrl

def delete (cacheId : ℤ) (requestUrl : List Char) : Store :=
  { store with
    rows := store.rows.filter fun row => ¬ (row.cacheId = cacheId ∧ row.requestUrl = requestUrl) }

/-- A row takes the place of the one for the same cache and URL. -/
def insertCacheAsset (put : CachePutRequest) (responseBodyKey : Option (List Char)) : Store :=
  { store.delete put.cacheId put.requestUrl with
    rows := put.row responseBodyKey :: (store.delete put.cacheId put.requestUrl).rows }

/-- The body is written to a file before the row is. -/
def put (request : CachePutRequest) (bodyKey : Option (List Char)) : Store :=
  match bodyKey with
  | none => store.insertCacheAsset request none
  | some key => { store with files := key :: store.files }.insertCacheAsset request (some key)

/-- What the row for a query is, with its headers read. -/
def queryRow (cacheId : ℤ) (requestUrl : List Char) :
    Except AnyError (Option (CacheMatchResponseMeta × Option (List Char))) :=
  match store.find cacheId requestUrl with
  | none => .ok none
  | some row => do
    let responseHeaders ← deserializeHeaders row.responseHeaders
    let requestHeaders ← deserializeHeaders row.requestHeaders
    return some (⟨row.responseStatus, row.responseStatusText, requestHeaders, responseHeaders⟩,
      row.responseBodyKey)

/-- Only for an entry with a body is the header `Vary` looked at. -/
def matchRequest (cacheId : ℤ) (requestUrl : List Char) (requestHeaders : List Header) :
    Except AnyError (Option (CacheMatchResponseMeta × Option (List Char)) × Store) := do
  let queryResult ← store.queryRow cacheId requestUrl
  match queryResult with
  | some (cacheMeta, some responseBodyKey) =>
    if (getHeader "vary".toList cacheMeta.responseHeaders).any fun varyHeader =>
        !varyHeaderMatches lower varyHeader (requestHeaders.map Header.pair)
          cacheMeta.requestHeaders then
      return (none, store)
    else if store.files.contains responseBodyKey then
      return (some (cacheMeta, some responseBodyKey), store)
    else return (none, store.delete cacheId requestUrl)
  | some (cacheMeta, none) => return (some (cacheMeta, none), store)
  | none => return (none, store)

end Store

/-! ### The class -/

structure PutArguments extends CachePutRequest where
  protocol : List Char
  method : List Char
  unusable : Bool

def joinedHeader (name : List Char) (headers : List Header) : Option (List Char) :=
  let values := (headers.filter fun header => eqIgnoreAsciiCase (chars header.name) name).map
    fun header => chars header.value
  if values = [] then none else some ([',', ' '].intercalate values)

/-- `String.prototype.trim` on bytes. -/
def isJsSpace (c : Char) : Bool := [9, 10, 11, 12, 13, 32, 0xA0].contains c.toNat

def jsTrim (text : List Char) : List Char := (text.dropWhile isJsSpace).rdropWhile isJsSpace

def checkPut (args : PutArguments) : Except AnyError Unit :=
  if args.protocol ≠ "http:".toList ∧ args.protocol ≠ "https:".toList then
    .error (typeError "Request url protocol must be 'http:' or 'https:'")
  else if args.method ≠ "GET".toList then .error (typeError "Request method must be GET")
  else if args.responseStatus = 206 then .error (typeError "Response status must not be 206")
  else if (joinedHeader "vary".toList args.responseHeaders).any fun varyHeader =>
      (varyHeader.splitOn ',').any fun field => jsTrim field = ['*'] then
    .error (typeError "Vary header must not contain '*'")
  else if args.unusable then .error (typeError "Response body is already used")
  else .ok ()

def cachePut (store : Store) (args : PutArguments) (bodyKey : Option (List Char)) :
    Except AnyError Store := do
  checkPut args
  return store.put args.toCachePutRequest bodyKey

/-! ### Programs -/

inductive Operation where
  | put (args : PutArguments) (bodyKey : Option (List Char))
  | delete (cacheId : ℤ) (requestUrl : List Char)
  | matchRequest (cacheId : ℤ) (requestUrl : List Char) (requestHeaders : List Header)

/-- A call that fails changes nothing. -/
def machine : Machine Store Operation where
  step store
    | .put args bodyKey => (cachePut store args bodyKey).toOption.getD store
    | .delete cacheId requestUrl => store.delete cacheId requestUrl
    | .matchRequest cacheId requestUrl requestHeaders =>
      ((store.matchRequest lower cacheId requestUrl requestHeaders).toOption.map (·.2)).getD store

end Deno.Cache
