import Deno.Core.ExceptLoop
import Deno.Kv.Selector

/-!
# Listing the key-value store

An iterator over the entries of a range pulls them in batches. The first batch is read from the
range itself, and each further one from behind the entry that was given out last.
-/

namespace Deno.Kv

open Core RawSelector

/-! ### The store -/

section

variable {Part : Type}

/-- An entry with its encoded key, which is not larger than what can be written. -/
structure Entry (codec : Codec Part) (Value : Type) where
  key : List Part
  value : Value
  bytes : Bytes
  encode_eq : codec.encodeKey key = .ok bytes
  length_le : bytes.length ≤ 2048

structure Store (codec : Codec Part) (Value : Type) where
  entries : List (Entry codec Value)
  sorted : entries.Pairwise (·.bytes < ·.bytes)

structure ReadRange where
  start : Bytes
  stop : Bytes
  limit : ℕ
  reverse : Bool

variable {codec : Codec Part} {Value : Type}

def inDirection {α : Type} (reverse : Bool) (entries : List α) : List α :=
  if reverse then entries.reverse else entries

def Store.read (store : Store codec Value) (range : ReadRange) : List (Entry codec Value) :=
  (inDirection range.reverse
    (store.entries.filter fun e => range.start ≤ e.bytes && e.bytes < range.stop)).take range.limit

end

/-! ### Reading -/

def maxReadKeySizeBytes : ℕ := 2049

def maxReadRanges : ℕ := 10

def maxReadEntries : ℕ := 1000

def checkReadKeySize (key : Bytes) : Except AnyError Unit :=
  if key.length > maxReadKeySizeBytes then
    .error (typeError "key too large for read (max 2049 bytes)")
  else .ok ()

structure SnapshotReadRange (Part : Type) where
  pre : Option (List Part)
  start : Option (List Part)
  stop : Option (List Part)
  limit : ℕ
  reverse : Bool
  cursor : Option String

section

variable {Part : Type} (codec : Codec Part) (base64 : Base64)

def readRange (r : SnapshotReadRange Part) : Except AnyError ReadRange := do
  let selector ← fromTuple codec r.pre r.start r.stop
  let (start, stop) ← decodeSelectorAndCursor base64.decode selector r.reverse r.cursor
  checkReadKeySize start
  checkReadKeySize stop
  if r.limit = 0 then .error (.msg "limit must be greater than 0")
  else .ok ⟨start, stop, r.limit, r.reverse⟩

variable {codec} {Value : Type}

def opKvSnapshotRead (store : Store codec Value) (ranges : List (SnapshotReadRange Part)) :
    Except AnyError (List (List (Entry codec Value))) :=
  if ranges.length > maxReadRanges then .error (typeError "too many ranges (max 10)")
  else do
    let readRanges ← ranges.mapM (readRange codec base64)
    if (ranges.map (·.limit)).sum > maxReadEntries then
      .error (typeError "too many entries (max 1000)")
    else .ok (readRanges.map store.read)

variable (codec)

def opKvEncodeCursor (pre start stop : Option (List Part)) (boundaryKey : List Part) :
    Except AnyError String := do
  let selector ← fromTuple codec pre start stop
  let boundaryKey ← codec.encodeKey boundaryKey
  encodeCursor base64.encode selector boundaryKey

end

/-! ### The iterator -/

structure KvListSelector (Part : Type) where
  pre : Option (List Part)
  start : Option (List Part)
  stop : Option (List Part)

/-- What the closure of the cursor refers to. -/
inductive CursorGen (Part : Type) where
  | unset
  | given (cursor : String)
  | atKey (key : List Part)
  | finished

structure KvListIterator {Part : Type} (codec : Codec Part) (Value : Type) where
  selector : KvListSelector Part
  entries : Option (List (Entry codec Value)) := none
  cursorGen : CursorGen Part
  done : Bool := false
  lastBatch : Bool := false
  limit : Option ℕ
  count : ℕ := 0
  reverse : Bool
  batchSize : ℕ

structure ListOptions where
  limit : Option ℕ := none
  batchSize : Option ℕ := none
  cursor : Option String := none
  reverse : Bool := false

namespace KvListIterator

variable {Part : Type} {codec : Codec Part} {Value : Type} (selector : KvListSelector Part)

/-- The keys that the iterator keeps of a selector. -/
def checkSelector : Except AnyError (KvListSelector Part) :=
  match selector.pre, selector.start, selector.stop with
  | some _, some _, some _ => .error (typeError
      "Selector can not specify both 'start' and 'end' key when specifying 'prefix'.")
  | some _, _, _ => .ok selector
  | none, some _, some _ => .ok selector
  | none, _, _ => .error (typeError
      "Selector must specify either 'prefix' or both 'start' and 'end' key.")

/-- A cursor that is the empty string counts as none. -/
def startCursor : Option String → CursorGen Part
  | none => .unset
  | some cursor => if cursor = "" then .unset else .given cursor

def new (limit : Option ℕ) (cursor : Option String)
    (reverse : Bool) (batchSize : ℕ) : Except AnyError (KvListIterator codec Value) := do
  let selector ← checkSelector selector
  return { selector, limit, reverse, batchSize, cursorGen := startCursor cursor }

variable (base64 : Base64)

variable (codec) in
/-- What the closure returns, if there is one. -/
def callCursorGen (selector : KvListSelector Part) :
    CursorGen Part → Except AnyError (Option String)
  | .unset => .ok none
  | .given cursor => .ok (some cursor)
  | .atKey key => do
    let cursor ← opKvEncodeCursor codec base64 selector.pre selector.start selector.stop key
    return some cursor
  | .finished => .ok (some "")

def cursor (it : KvListIterator codec Value) : Except AnyError String := do
  let cursor ← callCursorGen codec base64 it.selector it.cursorGen
  match cursor with
  | none => .error (.custom "Error" "Cannot get cursor before first iteration")
  | some cursor => .ok cursor

variable (store : Store codec Value)

def pullBatch (batchSize : ℕ) (selector : KvListSelector Part) (cursor : Option String)
    (reverse : Bool) : Except AnyError (List (Entry codec Value)) := do
  let ranges ← opKvSnapshotRead base64 store
    [⟨selector.pre, selector.start, selector.stop, batchSize, reverse, cursor⟩]
  return ranges.headD []

variable (it : KvListIterator codec Value)

/-- The buffer is filled if it is empty, unless the last batch has been pulled. It is kept in
reverse, so that entries are popped from its end. -/
def fill : Except AnyError (KvListIterator codec Value) :=
  if (it.entries.getD []).isEmpty && !it.lastBatch then do
    let cursor ← callCursorGen codec base64 it.selector it.cursorGen
    let batch ← pullBatch base64 store it.batchSize it.selector cursor it.reverse
    return { it with
      entries := some batch.reverse
      lastBatch := it.lastBatch || batch.length < it.batchSize }
  else .ok it

def popEntry : Option (Entry codec Value) × KvListIterator codec Value :=
  match (it.entries.getD []).getLast? with
  | none => (none, { it with done := true, cursorGen := .finished })
  | some entry => (some entry,
      { it with
        entries := it.entries.map List.dropLast
        cursorGen := .atKey entry.key
        count := it.count + 1 })

def next : Except AnyError (Option (Entry codec Value) × KvListIterator codec Value) :=
  if it.done || it.limit.any (it.count ≥ ·) then .ok (none, it)
  else do
    let it ← fill base64 store it
    return popEntry it

def nexts : ℕ → KvListIterator codec Value →
    Except AnyError (List (Option (Entry codec Value)) × KvListIterator codec Value)
  | 0, it => .ok ([], it)
  | n + 1, it => do
    let (entry, it) ← next base64 store it
    let (entries, it) ← nexts n it
    return (entry :: entries, it)

end KvListIterator

def list {Part : Type} {codec : Codec Part} {Value : Type} (selector : KvListSelector Part)
    (options : ListOptions) : Except AnyError (KvListIterator codec Value) :=
  if options.limit = some 0 then .error (.custom "Error" "limit must be positive")
  else
    let batchSize := options.batchSize.getD (options.limit.getD 100)
    if batchSize = 0 then .error (.custom "Error" "batchSize must be positive")
    else
      let batchSize := if options.batchSize.isNone && batchSize > 500 then 500 else batchSize
      KvListIterator.new selector options.limit options.cursor options.reverse batchSize

end Deno.Kv
