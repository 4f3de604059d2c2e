import Deno.Core.JsObject
import Deno.Core.PercentEncoding
import Deno.Core.TextDecoder
import Deno.Error

/-!
# Query strings

An object with strings and lists of strings as values is written as a query string, and a query
string is read in one loop over its units.
-/

namespace Deno

open Core

inductive QueryValue where
  | one (value : JsString)
  | many (values : List JsString)
  deriving DecidableEq

def QueryValue.toList : QueryValue → List JsString
  | .one value => [value]
  | .many values => values

namespace Querystring

/-! ### Escaping -/

def noEscape (c : UInt16) : Bool :=
  c = unit '!' || (0x27 ≤ c && c ≤ unit '*') || c = unit '-' || c = unit '.' ||
    (unit '0' ≤ c && c ≤ unit '9') || (unit 'A' ≤ c && c ≤ unit 'Z') || c = unit '_' ||
    (unit 'a' ≤ c && c ≤ unit 'z') || c = unit '~'

def hexTable (n : ℕ) : JsString := percentOctet (.ofNat n)

def errInvalidUri : AnyError := .custom "ERR_INVALID_URI" "URI malformed"

/-- The octets of a unit that is not a surrogate, and not in ASCII. -/
def encodeUnit (c : ℕ) : JsString :=
  if c < 0x800 then hexTable (0xC0 ||| c >>> 6) ++ hexTable (0x80 ||| c &&& 0x3F)
  else
    hexTable (0xE0 ||| c >>> 12) ++ hexTable (0x80 ||| (c >>> 6) &&& 0x3F) ++
      hexTable (0x80 ||| c &&& 0x3F)

def encodePair (c c₂ : ℕ) : JsString :=
  let c := 0x10000 + ((c &&& 0x3FF) <<< 10 ||| c₂ &&& 0x3FF)
  hexTable (0xF0 ||| c >>> 18) ++ hexTable (0x80 ||| (c >>> 12) &&& 0x3F) ++
    hexTable (0x80 ||| (c >>> 6) &&& 0x3F) ++ hexTable (0x80 ||| c &&& 0x3F)

/-- The loop of `encodeStr`: the position behind what is in `out`, and `out`. -/
def encodeLoop (str : JsString) (i lastPos : ℕ) (out : JsString) : Except AnyError (ℕ × JsString) :=
  if h : i < str.length then
    let c := str[i].toNat
    if c < 0x80 then
      if noEscape str[i] then encodeLoop str (i + 1) lastPos out
      else encodeLoop str (i + 1) (i + 1) (out ++ substring str lastPos i ++ hexTable c)
    else if c < 0x800 ∨ c < 0xD800 ∨ c ≥ 0xE000 then
      encodeLoop str (i + 1) (i + 1) (out ++ substring str lastPos i ++ encodeUnit c)
    else if h₂ : i + 1 < str.length then
      encodeLoop str (i + 2) (i + 2)
        (out ++ substring str lastPos i ++ encodePair c str[i + 1].toNat)
    else .error errInvalidUri
  else .ok (lastPos, out)
termination_by str.length - i

def encodeStr (str : JsString) : Except AnyError JsString := do
  if str = [] then return []
  let (lastPos, out) ← encodeLoop str 0 0 []
  if lastPos = 0 then return str
  return if lastPos < str.length then out ++ str.drop lastPos else out

def qsEscape (str : JsString) : Except AnyError JsString := encodeStr str

/-! ### Unescaping -/

def unescapeBuffer (decodeSpaces : Bool) : JsString → Bytes
  | [] => []
  | [c] => [if c = unit '+' ∧ decodeSpaces then 0x20 else .ofNat c.toNat]
  | [c, d] =>
    (if c = unit '+' ∧ decodeSpaces then 0x20 else .ofNat c.toNat) ::
      unescapeBuffer decodeSpaces [d]
  | c :: high :: low :: rest =>
    if c = unit '%' then
      match hexValue high, hexValue low with
      | none, _ => 0x25 :: unescapeBuffer decodeSpaces (high :: low :: rest)
      | some _, none => 0x25 :: .ofNat high.toNat :: unescapeBuffer decodeSpaces (low :: rest)
      | some hi, some lo => .ofNat (hi * 16 + lo) :: unescapeBuffer decodeSpaces rest
    else
      (if c = unit '+' ∧ decodeSpaces then 0x20 else .ofNat c.toNat) ::
        unescapeBuffer decodeSpaces (high :: low :: rest)

def qsUnescape (s : JsString) : JsString :=
  match decodeURIComponent s with
  | some text => text
  | none => utf8Slice (unescapeBuffer false s)

/-! ### Writing -/

structure StringifyOptions where
  encodeURIComponent : Option (JsString → Except AnyError JsString)

/-- How a string is written: with the default, an empty one is not passed to the encoder. -/
def convert : Option StringifyOptions → JsString → Except AnyError JsString
  | none, v => if v = [] then .ok [] else qsEscape v
  | some options, v => options.encodeURIComponent.getD qsEscape v

section

variable (options : Option StringifyOptions) (sep : JsString)

def stringifyMore (ks : JsString) : List JsString → JsString → Except AnyError JsString
  | [], fields => .ok fields
  | v :: vs, fields => do
    let value ← convert options v
    stringifyMore ks vs (fields ++ sep ++ ks ++ value)

def stringifyValues (ks : JsString) : List JsString → JsString → Except AnyError JsString
  | [], fields => .ok fields
  | v :: vs, fields => do
    let fields := if fields ≠ [] then fields ++ sep else fields
    let value ← convert options v
    stringifyMore options sep ks vs (fields ++ ks ++ value)

def stringifyEntries (eq : JsString) :
    List (JsString × QueryValue) → JsString → Except AnyError JsString
  | [], fields => .ok fields
  | (k, v) :: es, fields => do
    let ks ← convert options k
    let fields ← stringifyValues options sep (ks ++ eq) v.toList fields
    stringifyEntries eq es fields

end

/-- `querystring.stringify`; an empty separator is the default one. -/
def stringify (obj : JsObject QueryValue) (sep eq : JsString) (options : Option StringifyOptions) :
    Except AnyError JsString :=
  let sep := if sep = [] then js "&" else sep
  let eq := if eq = [] then js "=" else eq
  stringifyEntries options sep eq obj.ownEntries []

/-! ### Reading -/

def isHex (code : UInt16) : Bool := (hexValue code).isSome

structure ParseOptions where
  sepCodes : JsString
  eqCodes : JsString
  decode : JsString → JsString
  customDecode : Bool
  maxKeys : ℤ

structure ParseState where
  obj : JsObject QueryValue
  pairs : ℤ
  lastPos : ℕ
  sepIdx : ℕ
  eqIdx : ℕ
  key : JsString
  value : JsString
  keyEncoded : Bool
  valEncoded : Bool
  encodeCheck : ℕ

/-- The loop returns early, or goes on. -/
inductive Step where
  | done (obj : JsObject QueryValue)
  | next (state : ParseState)

def addValue (obj : JsObject QueryValue) (key value : JsString) : JsObject QueryValue :=
  match obj.get? key with
  | none => obj.set key (.one value)
  | some (.one curValue) => obj.set key (.many [curValue, value])
  | some (.many curValue) => obj.set key (.many (curValue ++ [value]))

section

variable (options : ParseOptions) (str : JsString)

def addKeyVal (s : ParseState) : JsObject QueryValue :=
  let key := if s.key ≠ [] ∧ s.keyEncoded then options.decode s.key else s.key
  let value := if s.value ≠ [] ∧ s.valEncoded then options.decode s.value else s.value
  addValue s.obj key value

variable (i : ℕ)

def finishPair (s : ParseState) : Step :=
  let obj := addKeyVal options s
  if s.pairs - 1 = 0 then .done obj
  else
    .next { s with
      obj, pairs := s.pairs - 1, key := [], value := [], encodeCheck := 0, lastPos := i + 1,
      sepIdx := 0, eqIdx := 0 }

def endPair (s : ParseState) : Step :=
  let stop := i + 1 - s.sepIdx
  if s.eqIdx < options.eqCodes.length then
    if s.lastPos < stop then
      finishPair options i { s with key := s.key ++ substring str s.lastPos stop }
    else if s.key = [] then
      -- an empty substring between separators
      if s.pairs - 1 = 0 then .done s.obj
      else .next { s with pairs := s.pairs - 1, lastPos := i + 1, sepIdx := 0, eqIdx := 0 }
    else finishPair options i s
  else finishPair options i { s with value := s.value ++ substring str s.lastPos stop }

def plusChar : JsString := if options.customDecode then js "%20" else js " "

variable (code : UInt16) (s : ParseState)

/-- A unit of a value: look for an escape once. -/
def valueStep : ParseState :=
  if code = unit '+' then
    { s with value := s.value ++ substring str s.lastPos i ++ plusChar options, lastPos := i + 1 }
  else if s.valEncoded then s
  else if code = unit '%' then { s with encodeCheck := 1 }
  else if s.encodeCheck > 0 then
    if isHex code then
      { s with encodeCheck := s.encodeCheck + 1, valEncoded := s.encodeCheck + 1 = 3 }
    else { s with encodeCheck := 0 }
  else s

/-- A unit of a key. What does not end here is treated as a unit of a value. -/
def keyStep : ParseState :=
  let s := { s with eqIdx := 0 }
  if !s.keyEncoded && code = unit '%' then { s with encodeCheck := 1 }
  else if !s.keyEncoded && s.encodeCheck > 0 && isHex code then
    { s with encodeCheck := s.encodeCheck + 1, keyEncoded := s.encodeCheck + 1 = 3 }
  else
    let s := if !s.keyEncoded && s.encodeCheck > 0 then { s with encodeCheck := 0 } else s
    if code = unit '+' then
      { s with key := s.key ++ substring str s.lastPos i ++ plusChar options, lastPos := i + 1 }
    else valueStep options str i code s

def step : Step :=
  if options.sepCodes[s.sepIdx]? = some code then
    let s := { s with sepIdx := s.sepIdx + 1 }
    if s.sepIdx = options.sepCodes.length then endPair options str i s else .next s
  else
    let s := { s with sepIdx := 0 }
    if s.eqIdx < options.eqCodes.length then
      if options.eqCodes[s.eqIdx]? = some code then
        let s := { s with eqIdx := s.eqIdx + 1 }
        if s.eqIdx = options.eqCodes.length then
          .next { s with
            key := s.key ++ substring str s.lastPos (i + 1 - s.eqIdx), encodeCheck := 0,
            lastPos := i + 1 }
        else .next s
      else .next (keyStep options str i code s)
    else .next (valueStep options str i code s)

/-- The loop over the units from an index on. -/
def parseLoop : ℕ → JsString → ParseState → Step
  | _, [], s => .next s
  | i, code :: rest, s =>
    match step options str i code s with
    | .done obj => .done obj
    | .next s => parseLoop (i + 1) rest s

def finishParse (s : ParseState) : JsObject QueryValue :=
  if s.lastPos < str.length then
    if s.eqIdx < options.eqCodes.length then
      addKeyVal options { s with key := s.key ++ str.drop s.lastPos }
    else if s.sepIdx < options.sepCodes.length then
      addKeyVal options { s with value := s.value ++ str.drop s.lastPos }
    else addKeyVal options s
  else if s.eqIdx = 0 ∧ s.key = [] then s.obj
  else addKeyVal options s

def initialState : ParseState where
  obj := .empty
  pairs := if options.maxKeys > 0 then options.maxKeys else -1
  lastPos := 0
  sepIdx := 0
  eqIdx := 0
  key := []
  value := []
  keyEncoded := options.customDecode
  valEncoded := options.customDecode
  encodeCheck := 0

def runParse (i : ℕ) (rest : JsString) (s : ParseState) : JsObject QueryValue :=
  match parseLoop options str i rest s with
  | .done obj => obj
  | .next s => finishParse options str s

end

/-- `querystring.parse`; an empty separator is the default one. -/
def parse (str sep eq : JsString) (decodeURIComponent : Option (JsString → JsString))
    (maxKeys : ℤ) : JsObject QueryValue :=
  let options : ParseOptions :=
    { sepCodes := if sep = [] then js "&" else sep
      eqCodes := if eq = [] then js "=" else eq
      decode := decodeURIComponent.getD qsUnescape
      customDecode := decodeURIComponent.isSome
      maxKeys }
  if str = [] then .empty else runParse options str 0 str (initialState options)

end Querystring

end Deno
