import Deno.Core.Buffer
import Deno.Core.Machine

/-!
# Readable byte streams

The controller of a readable byte stream, with the stream and its reader, as long as the stream is
readable and nobody has asked to close it. Chunks that the source enqueues go to the queue or to
reads that are pending; a read into a buffer of the consumer (BYOB) waits as a descriptor, whose
buffer the source can fill through a request.

An operation can call the pull algorithm of the source. At the end of an operation this is as if
the source acted afterwards; a call in the middle leaves a frame, with what is left to do when the
source returns. While it is pulling the controller does not pull, so that frames are not nested.
-/

namespace Deno

open Core

inductive ViewConstructor where
  | dataView
  | int8Array
  | uint8Array
  | uint8ClampedArray
  | int16Array
  | uint16Array
  | int32Array
  | uint32Array
  | float32Array
  | float64Array
  | bigInt64Array
  | bigUint64Array
  deriving DecidableEq

/-- `BYTES_PER_ELEMENT`. -/
def ViewConstructor.elementSize : ViewConstructor → ℕ
  | .dataView | .int8Array | .uint8Array | .uint8ClampedArray => 1
  | .int16Array | .uint16Array => 2
  | .int32Array | .uint32Array | .float32Array => 4
  | .float64Array | .bigInt64Array | .bigUint64Array => 8

/-- A view of a buffer that is not detached, with its length in elements. -/
structure ArrayBufferView where
  viewConstructor : ViewConstructor
  buffer : Bytes
  byteOffset : ℕ
  length : ℕ
  inBounds : byteOffset + length * viewConstructor.elementSize ≤ buffer.length

namespace ArrayBufferView

def byteLength (view : ArrayBufferView) : ℕ := view.length * view.viewConstructor.elementSize

def bytes (view : ArrayBufferView) : Bytes := slice view.buffer view.byteOffset view.byteLength

end ArrayBufferView

inductive ReaderType where
  | default
  | byob
  | none
  deriving DecidableEq

/-- The buffer is detached when the source has transferred it. -/
structure PullIntoDescriptor where
  buffer : Bytes
  detached : Bool
  bufferByteLength : ℕ
  byteOffset : ℕ
  byteLength : ℕ
  bytesFilled : ℕ
  minimumFill : ℕ
  elementSize : ℕ
  viewConstructor : ViewConstructor
  readerType : ReaderType
  deriving DecidableEq

def PullIntoDescriptor.filled (d : PullIntoDescriptor) : Bytes :=
  slice d.buffer d.byteOffset d.bytesFilled

structure ReadableByteStreamQueueEntry where
  buffer : Bytes
  byteOffset : ℕ
  byteLength : ℕ
  deriving DecidableEq

def ReadableByteStreamQueueEntry.bytes (entry : ReadableByteStreamQueueEntry) : Bytes :=
  slice entry.buffer entry.byteOffset entry.byteLength

/-- A reader and the number of its pending requests. They are served in their order. -/
inductive StreamReader where
  | default (readRequests : ℕ)
  | byob (readIntoRequests : ℕ)
  deriving DecidableEq

/-- A request to fill the first descriptor: where its view is in the buffer. -/
structure ReadableStreamBYOBRequest where
  byteOffset : ℕ
  byteLength : ℕ
  deriving DecidableEq

/-- What is left of an operation that has called the source: a chunk for a read request, and in an
`enqueue` also the view to be enqueued. The reader that it serves may have been released. -/
inductive PullFrame where
  | read (chunk : Bytes)
  | enqueue (chunk : Bytes) (view : ArrayBufferView)
  | released (chunk : Bytes) (view : ArrayBufferView)

def PullFrame.release : PullFrame → PullFrame
  | .enqueue chunk view => .released chunk view
  | frame => frame

/-- A stream with its controller and reader. The last three fields are for the record: the bytes
that readers got, those that the source produced, and the descriptors that became views. -/
structure ByteStream where
  autoAllocateChunkSize : Option ℕ
  strategyHWM : ℕ
  started : Bool
  pulling : Bool
  pullAgain : Bool
  byobRequest : Option ReadableStreamBYOBRequest
  pendingPullIntos : List PullIntoDescriptor
  queue : List ReadableByteStreamQueueEntry
  queueTotalSize : ℕ
  reader : Option StreamReader
  frame : Option PullFrame
  delivered : Bytes
  produced : Bytes
  committed : List PullIntoDescriptor

/-- How an operation can fail: by an assertion or a use of `null`, or with an error for the
caller. -/
inductive StreamError where
  | assertion
  | nullDereference
  | typeError (message : String)
  | rangeError (message : String)
  deriving DecidableEq

namespace ByteStream

/-- A new stream. The chunk size for automatic allocation, if any, is positive. -/
def fresh (autoAllocateChunkSize : Option { size : ℕ // 0 < size }) (highWaterMark : ℕ) :
    ByteStream where
  autoAllocateChunkSize := autoAllocateChunkSize.map Subtype.val
  strategyHWM := highWaterMark
  started := false
  pulling := false
  pullAgain := false
  byobRequest := none
  pendingPullIntos := []
  queue := []
  queueTotalSize := 0
  reader := none
  frame := none
  delivered := []
  produced := []
  committed := []

def assert (p : Prop) [Decidable p] : Except StreamError Unit :=
  if p then .ok () else .error .assertion

/-! ### Readers -/

variable (s : ByteStream)

def numRequests : ℕ :=
  match s.reader with
  | some (.default n) => n
  | some (.byob n) => n
  | none => 0

variable (chunk : Bytes)

/-- `chunkSteps` of a read request. -/
def deliver : ByteStream :=
  { s with delivered := s.delivered ++ chunk }

def fulfillReadRequest : Except StreamError ByteStream :=
  match s.reader with
  | some (.default (n + 1)) => .ok ({ s with reader := some (.default n) }.deliver chunk)
  | _ => .error .assertion

def fulfillReadIntoRequest : Except StreamError ByteStream :=
  match s.reader with
  | some (.byob (n + 1)) => .ok ({ s with reader := some (.byob n) }.deliver chunk)
  | _ => .error .assertion

/-! ### Pulling -/

def shouldCallPull : Bool :=
  s.started && (decide (0 < s.numRequests) || decide (s.queueTotalSize < s.strategyHWM))

/-- The second component says that the pull algorithm is called. -/
def callPullIfNeeded : Except StreamError (ByteStream × Bool) :=
  if !s.shouldCallPull then .ok (s, false)
  else if s.pulling then .ok ({ s with pullAgain := true }, false)
  else if s.pullAgain then .error .assertion
  else .ok ({ s with pulling := true }, true)

/-- Nothing is left to do but to pull. -/
def endWithPull : Except StreamError ByteStream := do
  let (s, _) ← s.callPullIfNeeded
  return s

/-! ### The queue -/

def enqueueChunkToQueue (buffer : Bytes) (byteOffset byteLength : ℕ) : ByteStream :=
  { s with
    queue := s.queue ++ [⟨buffer, byteOffset, byteLength⟩]
    queueTotalSize := s.queueTotalSize + byteLength }

def enqueueClonedChunkToQueue (buffer : Bytes) (byteOffset byteLength : ℕ) : ByteStream :=
  s.enqueueChunkToQueue (slice buffer byteOffset byteLength) 0 byteLength

def invalidateBYOBRequest : ByteStream := { s with byobRequest := none }

def shiftPendingPullInto : Except StreamError ByteStream := do
  assert (s.byobRequest = none)
  return { s with pendingPullIntos := s.pendingPullIntos.tail }

def enqueueDetachedPullIntoToQueue (d : PullIntoDescriptor) : Except StreamError ByteStream := do
  assert (d.readerType = .none)
  let s := if 0 < d.bytesFilled then s.enqueueClonedChunkToQueue d.buffer d.byteOffset d.bytesFilled
    else s
  s.shiftPendingPullInto

/-! ### Descriptors -/

/-- A descriptor changes in place, also where it is the first one of the list. -/
def setFirst (d d' : PullIntoDescriptor) : ByteStream :=
  if s.pendingPullIntos.head? = some d then
    { s with pendingPullIntos := d' :: s.pendingPullIntos.tail }
  else s

def fillHeadPullIntoDescriptor (size : ℕ) (d : PullIntoDescriptor) :
    Except StreamError (ByteStream × PullIntoDescriptor) := do
  assert (s.pendingPullIntos = [] ∨ s.pendingPullIntos.head? = some d)
  assert (s.byobRequest = none)
  let d' := { d with bytesFilled := d.bytesFilled + size }
  return (s.setFirst d d', d')

/-- The loop of `fillPullIntoDescriptorFromQueue`. -/
def copyFromQueue : List ReadableByteStreamQueueEntry → ℕ → ByteStream → PullIntoDescriptor →
    Except StreamError (ByteStream × PullIntoDescriptor)
  | [], remaining, s, d => if remaining = 0 then .ok (s, d) else .error .nullDereference
  | entry :: queue, remaining, s, d =>
    if remaining = 0 then .ok (s, d)
    else do
      let bytesToCopy := min remaining entry.byteLength
      let source := slice entry.buffer entry.byteOffset bytesToCopy
      let d' := { d with buffer := writeAt d.buffer (d.byteOffset + d.bytesFilled) source }
      let s := s.setFirst d d'
      let s := { s with queueTotalSize := s.queueTotalSize - bytesToCopy }
      if entry.byteLength = bytesToCopy then
        let (s, d) ← { s with queue := queue }.fillHeadPullIntoDescriptor bytesToCopy d'
        copyFromQueue queue (remaining - bytesToCopy) s d
      else
        -- the entry has more than what remains to be copied
        let entry' := { entry with
          byteOffset := entry.byteOffset + bytesToCopy, byteLength := entry.byteLength - bytesToCopy }
        { s with queue := entry' :: queue }.fillHeadPullIntoDescriptor bytesToCopy d'

def fillPullIntoDescriptorFromQueue (s : ByteStream) (d : PullIntoDescriptor) :
    Except StreamError (Bool × ByteStream × PullIntoDescriptor) := do
  let maxBytesToCopy := min s.queueTotalSize (d.byteLength - d.bytesFilled)
  let maxBytesFilled := d.bytesFilled + maxBytesToCopy
  assert (d.bytesFilled < d.minimumFill)
  let maxAlignedBytes := maxBytesFilled - maxBytesFilled % d.elementSize
  if d.minimumFill ≤ maxAlignedBytes then
    let (s, d) ← copyFromQueue s.queue (maxAlignedBytes - d.bytesFilled) s d
    return (true, s, d)
  else
    let (s, d) ← copyFromQueue s.queue maxBytesToCopy s d
    assert (s.queueTotalSize = 0)
    assert (0 < d.bytesFilled)
    assert (d.bytesFilled < d.minimumFill)
    return (false, s, d)

def convertPullIntoDescriptor (s : ByteStream) (d : PullIntoDescriptor) :
    Except StreamError (ByteStream × Bytes) := do
  assert (d.bytesFilled ≤ d.byteLength)
  assert (d.bytesFilled % d.elementSize = 0)
  return ({ s with committed := s.committed ++ [d] }, d.filled)

def commitPullIntoDescriptor (s : ByteStream) (d : PullIntoDescriptor) :
    Except StreamError ByteStream := do
  assert (d.readerType ≠ .none)
  let (s, filledView) ← s.convertPullIntoDescriptor d
  if d.readerType = .default then s.fulfillReadRequest filledView
  else s.fulfillReadIntoRequest filledView

/-- The loop of `processPullIntoDescriptorsUsingQueue`, with the descriptors that are pending. -/
def processPullIntos : List PullIntoDescriptor → ByteStream → Except StreamError ByteStream
  | [], s => .ok s
  | d :: rest, s =>
    if s.queueTotalSize = 0 then .ok s
    else do
      let (ready, s, d) ← s.fillPullIntoDescriptorFromQueue d
      if ready then
        let s ← s.shiftPendingPullInto
        let s ← s.commitPullIntoDescriptor d
        processPullIntos rest s
      -- nothing is left in the queue, which ends the loop
      else return s

def processPullIntoDescriptorsUsingQueue (s : ByteStream) : Except StreamError ByteStream :=
  processPullIntos s.pendingPullIntos s

/-! ### Enqueueing -/

/-- `fillReadRequestFromQueue`, up to the request: the chunk for it, and whether the source has
been called before it gets the chunk. -/
def takeFromQueue (s : ByteStream) : Except StreamError (Bytes × ByteStream × Bool) := do
  assert (0 < s.queueTotalSize)
  match s.queue with
  | [] => .error .nullDereference
  | entry :: queue =>
    let (s, called) ← { s with
      queue := queue, queueTotalSize := s.queueTotalSize - entry.byteLength }.callPullIfNeeded
    return (entry.bytes, s, called)

/-- What `enqueue` does for a default reader when the read requests have been processed. -/
def enqueueForDefaultReader (s : ByteStream) (chunk : ArrayBufferView) :
    Except StreamError ByteStream :=
  match s.reader with
  | some (.default 0) => do
    assert (s.pendingPullIntos = [])
    (s.enqueueChunkToQueue chunk.buffer chunk.byteOffset chunk.byteLength).endWithPull
  | some (.default (_ + 1)) => do
    assert (s.queue = [])
    let s ← match s.pendingPullIntos with
      | [] => .ok s
      | first :: _ => do
        assert (first.readerType = .default)
        s.shiftPendingPullInto
    let s ← s.fulfillReadRequest chunk.bytes
    s.endWithPull
  | _ => .error .assertion

/-- The loop of `processReadRequestsUsingQueue` and the rest of `enqueue`. -/
def processReadRequests : ℕ → ByteStream → ArrayBufferView → Except StreamError ByteStream
  | 0, s, chunk => s.enqueueForDefaultReader chunk
  | n + 1, s, chunk =>
    if s.queueTotalSize = 0 then s.enqueueForDefaultReader chunk
    else do
      let (bytes, s, called) ← { s with reader := some (.default n) }.takeFromQueue
      if called then return { s with frame := some (.enqueue bytes chunk) }
      else processReadRequests n (s.deliver bytes) chunk

section

variable (s : ByteStream)

/-- What `enqueue` does with a chunk that is its own, depending on the reader. -/
def enqueueForReader (chunk : ArrayBufferView) : Except StreamError ByteStream :=
  match s.reader with
  | some (.default n) => processReadRequests n s chunk
  | some (.byob _) => do
    let s ← (s.enqueueChunkToQueue chunk.buffer chunk.byteOffset
      chunk.byteLength).processPullIntoDescriptorsUsingQueue
    s.endWithPull
  | none => (s.enqueueChunkToQueue chunk.buffer chunk.byteOffset chunk.byteLength).endWithPull

def enqueue (chunk : ArrayBufferView) : Except StreamError ByteStream := do
  if chunk.byteLength = 0 then .error (.typeError "length must be non-zero")
  else
    let s := { s with produced := s.produced ++ chunk.bytes }
    let s ← match s.pendingPullIntos with
      | [] => .ok s
      | first :: _ =>
        if first.detached then
          .error (.typeError "The BYOB request's buffer has been detached and so cannot be filled with an enqueued chunk")
        else if first.readerType = .none then
          s.invalidateBYOBRequest.enqueueDetachedPullIntoToQueue first
        else .ok s.invalidateBYOBRequest
    s.enqueueForReader chunk

/-! ### Reading -/

/-- The descriptor of a read of a default reader, with a buffer that is allocated for it. -/
def autoAllocatedDescriptor (autoAllocateChunkSize : ℕ) : PullIntoDescriptor where
  buffer := List.replicate autoAllocateChunkSize 0
  detached := false
  bufferByteLength := autoAllocateChunkSize
  byteOffset := 0
  byteLength := autoAllocateChunkSize
  bytesFilled := 0
  elementSize := 1
  minimumFill := 1
  viewConstructor := .uint8Array
  readerType := .default

/-- `pullSteps`: a read of a default reader. -/
def read (s : ByteStream) : Except StreamError ByteStream :=
  match s.reader with
  | some (.default n) =>
    if 0 < s.queueTotalSize then do
      assert (n = 0)
      let (bytes, s, called) ← s.takeFromQueue
      return if called then { s with frame := some (.read bytes) } else s.deliver bytes
    else
      let s := match s.autoAllocateChunkSize with
        | none => s
        | some size => { s with
            pendingPullIntos := s.pendingPullIntos ++ [autoAllocatedDescriptor size] }
      { s with reader := some (.default (n + 1)) }.endWithPull
  | _ => .error (.typeError "Reader has no associated stream.")

variable (view : ArrayBufferView) (min : ℕ)

def pullIntoDescriptor : PullIntoDescriptor where
  buffer := view.buffer
  detached := false
  bufferByteLength := view.buffer.length
  byteOffset := view.byteOffset
  byteLength := view.byteLength
  bytesFilled := 0
  minimumFill := min * view.viewConstructor.elementSize
  elementSize := view.viewConstructor.elementSize
  viewConstructor := view.viewConstructor
  readerType := .byob

/-- A request that waits: its descriptor is the last one. -/
def addReadIntoRequest (d : PullIntoDescriptor) : Except StreamError ByteStream :=
  match s.reader with
  | some (.byob n) => .ok { s with
      pendingPullIntos := s.pendingPullIntos ++ [d], reader := some (.byob (n + 1)) }
  | _ => .error .assertion

def pullInto : Except StreamError ByteStream := do
  let d := pullIntoDescriptor view min
  assert (d.minimumFill ≤ d.byteLength)
  assert (d.minimumFill % d.elementSize = 0)
  if s.pendingPullIntos ≠ [] then s.addReadIntoRequest d
  else if 0 < s.queueTotalSize then
    let (ready, s, d) ← s.fillPullIntoDescriptorFromQueue d
    if ready then
      let (s, filledView) ← s.convertPullIntoDescriptor d
      let (s, called) ← s.callPullIfNeeded
      return if called then { s with frame := some (.read filledView) } else s.deliver filledView
    else
      let s ← s.addReadIntoRequest d
      s.endWithPull
  else
    let s ← s.addReadIntoRequest d
    s.endWithPull

def readInto : Except StreamError ByteStream :=
  if view.byteLength = 0 then .error (.typeError "view must have non-zero byteLength")
  else if min = 0 then .error (.typeError "options.min must be non-zero")
  else if min > view.length then
    .error (.rangeError "options.min must be smaller or equal to view's size")
  else
    match s.reader with
    | some (.byob _) => s.pullInto view min
    | _ => .error (.typeError "Reader has no associated stream.")

/-! ### Locks -/

/-- A reader of the given type locks a stream without a reader. -/
def getReader (byob : Bool) : Except StreamError ByteStream :=
  match s.reader with
  | none => .ok { s with reader := some (if byob then .byob 0 else .default 0) }
  | some _ => .error (.typeError "ReadableStream is locked.")

/-- The requests of the reader fail, and its first descriptor is nobody's. -/
def releaseLock : ByteStream :=
  match s.reader with
  | none => s
  | some _ => { s with
      pendingPullIntos := s.pendingPullIntos.head?.toList.map fun d => { d with readerType := .none }
      reader := none
      frame := s.frame.map PullFrame.release }

/-! ### Requests to the source -/

def getBYOBRequest : ByteStream :=
  match s.byobRequest, s.pendingPullIntos with
  | none, first :: _ => { s with byobRequest := some {
      byteOffset := first.byteOffset + first.bytesFilled
      byteLength := first.byteLength - first.bytesFilled } }
  | _, _ => s

/-- The source transfers the buffer of its request. -/
def transferRequest : ByteStream :=
  match s.byobRequest, s.pendingPullIntos with
  | some _, first :: rest => { s with pendingPullIntos := { first with detached := true } :: rest }
  | _, _ => s

def respondInReadableState (bytesWritten : ℕ) (d : PullIntoDescriptor) :
    Except StreamError ByteStream := do
  assert (d.bytesFilled + bytesWritten ≤ d.byteLength)
  let (s, d) ← s.fillHeadPullIntoDescriptor bytesWritten d
  if d.readerType = .none then
    let s ← s.enqueueDetachedPullIntoToQueue d
    s.processPullIntoDescriptorsUsingQueue
  else if d.bytesFilled < d.minimumFill then return s
  else
    let s ← s.shiftPendingPullInto
    let remainderSize := d.bytesFilled % d.elementSize
    let s := if 0 < remainderSize then
        s.enqueueClonedChunkToQueue d.buffer (d.byteOffset + d.bytesFilled - remainderSize)
          remainderSize
      else s
    let s ← s.commitPullIntoDescriptor { d with bytesFilled := d.bytesFilled - remainderSize }
    s.processPullIntoDescriptorsUsingQueue

/-- `respondInternal`, with the first descriptor and the rest. -/
def respondInternal (bytesWritten : ℕ) (first : PullIntoDescriptor)
    (rest : List PullIntoDescriptor) : Except StreamError ByteStream := do
  assert (first.detached = false)
  assert (0 < bytesWritten)
  let s := { s with pendingPullIntos := first :: rest }.invalidateBYOBRequest
  let s ← s.respondInReadableState bytesWritten first
  s.endWithPull

/-- The source has written into the view of its request, and responds with the number of bytes. -/
def respond (s : ByteStream) (written : Bytes) : Except StreamError ByteStream :=
  match s.byobRequest, s.pendingPullIntos with
  | none, _ => .error (.typeError "This BYOB request has been invalidated")
  | some _, [] => .error .assertion
  | some request, first :: rest =>
    if first.detached then
      .error (.typeError "The BYOB request's buffer has been detached and so cannot be used as a response")
    else do
      assert (0 < request.byteLength)
      assert (0 < first.buffer.length)
      if written.length = 0 then
        .error (.typeError "bytesWritten must be greater than 0 when calling respond() on a readable stream")
      else if first.bytesFilled + written.length > first.byteLength then
        .error (.rangeError "bytesWritten out of range")
      else
        let first := { first with buffer := writeAt first.buffer request.byteOffset written }
        let s := { s with produced := s.produced ++ written }
        s.respondInternal written.length first rest

def respondWithNewView (s : ByteStream) (view : ArrayBufferView) : Except StreamError ByteStream :=
  match s.byobRequest, s.pendingPullIntos with
  | none, _ => .error (.typeError "This BYOB request has been invalidated")
  | some _, [] => .error .assertion
  | some _, first :: rest =>
    if view.byteLength = 0 then
      .error (.typeError "The view's length must be greater than 0 when calling respondWithNewView() on a readable stream")
    else if first.byteOffset + first.bytesFilled ≠ view.byteOffset then
      .error (.rangeError "The region specified by view does not match byobRequest")
    else if first.bufferByteLength ≠ view.buffer.length then
      .error (.rangeError "The buffer of view has different capacity than byobRequest")
    else if first.bytesFilled + view.byteLength > first.byteLength then
      .error (.rangeError "The region specified by view is larger than byobRequest")
    else
      let first := { first with buffer := view.buffer, detached := false }
      let s := { s with produced := s.produced ++ view.bytes }
      s.respondInternal view.byteLength first rest

/-! ### Promises -/

def start : Except StreamError ByteStream :=
  if s.started then .ok s
  else do
    assert (s.pulling = false)
    assert (s.pullAgain = false)
    { s with started := true }.endWithPull

def pullResolved : Except StreamError ByteStream :=
  if !s.pulling then .ok s
  else if s.pullAgain then { s with pulling := false, pullAgain := false }.endWithPull
  else .ok { s with pulling := false }

/-- The pull algorithm returns to the operation that has called it. -/
def pullReturns : Except StreamError ByteStream :=
  match s.frame with
  | none => .ok s
  | some (.read chunk) => .ok ({ s with frame := none }.deliver chunk)
  | some (.enqueue chunk view) =>
    processReadRequests s.numRequests ({ s with frame := none }.deliver chunk) view
  | some (.released chunk view) =>
    -- the loop is over the requests of the reader that it began with
    processReadRequests 0 ({ s with frame := none }.deliver chunk) view

end

end ByteStream

/-! ### Runs -/

/-- What can happen to a stream: the source acts, the consumer acts, or a promise resolves. -/
inductive ByteStreamAction where
  | enqueue (chunk : ArrayBufferView)
  | getBYOBRequest
  | transferRequest
  | respond (written : Bytes)
  | respondWithNewView (view : ArrayBufferView)
  | pullReturns
  | getReader (byob : Bool)
  | releaseLock
  | read
  | readInto (view : ArrayBufferView) (min : ℕ)
  | start
  | pullResolved

def ByteStreamAction.isReaction : ByteStreamAction → Bool
  | .start | .pullResolved => true
  | _ => false

namespace ByteStream

def perform (s : ByteStream) : ByteStreamAction → Except StreamError ByteStream
  | .enqueue chunk => s.enqueue chunk
  | .getBYOBRequest => .ok s.getBYOBRequest
  | .transferRequest => .ok s.transferRequest
  | .respond written => s.respond written
  | .respondWithNewView view => s.respondWithNewView view
  | .pullReturns => s.pullReturns
  | .getReader byob => s.getReader byob
  | .releaseLock => .ok s.releaseLock
  | .read => s.read
  | .readInto view min => s.readInto view min
  | .start => s.start
  | .pullResolved => s.pullResolved

/-- The caller of an operation catches its errors. They are thrown before anything changes. -/
def caught (s : ByteStream) : Except StreamError ByteStream → Except StreamError ByteStream
  | .error (.typeError _) | .error (.rangeError _) => .ok s
  | result => result

/-- One step. While an operation waits for the pull algorithm, no promise has its reactions run. -/
def act (s : ByteStream) (action : ByteStreamAction) : Except StreamError ByteStream :=
  if s.frame.isSome && action.isReaction then .ok s else s.caught (s.perform action)

/-- A failed assertion ends a run. -/
def machine : Machine (Except StreamError ByteStream) ByteStreamAction :=
  ⟨fun s action => s.bind fun s => s.act action⟩

end ByteStream

end Deno
