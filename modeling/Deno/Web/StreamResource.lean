import Deno.Core.Bytes
import Deno.Core.Machine
import Deno.Core.Ring
import Deno.Error

/-!
# The channel of a stream resource

A response stream hands its buffers to the runtime through a bounded channel: a ring of buffers
with the number of them and of their bytes kept beside it. A read takes the first buffer or a
part of it, and joins small buffers if it can take them all.
-/

namespace Deno

open Core

def bufferChannelSize : ℕ := 1024

def bufferBackpressureLimit : ℕ := 64 * 1024

def bufferAggregationLimit : ℕ := 1024

/-- What must not happen in the channel: a slot is read that holds no buffer, a counter falls
below zero, an assertion fails, a failed write is unwrapped, a loop does not end. -/
inductive ChannelFault where
  | uninitialized
  | overflow
  | assertion (text : String)
  | unwrap
  | diverged
  deriving DecidableEq

/-- The channel; `ω` is the type of wakers. -/
structure BoundedBufferChannelInner (ω : Type) where
  buffers : ℕ → Option Bytes
  ringProducer : ℕ
  ringConsumer : ℕ
  error : Option AnyError
  currentSize : ℕ
  len : ℕ
  closed : Bool
  readWaker : Option ω
  writeWaker : Option ω

/-- What a read returns, the channel behind it, and whom it wakes. -/
structure ReadOutcome (ω : Type) where
  result : Except AnyError (Option Bytes)
  channel : BoundedBufferChannelInner ω
  woken : List ω

/-- Subtraction of sizes, which must not fall below zero. -/
def checkedSub (a b : ℕ) : Except ChannelFault ℕ :=
  if b ≤ a then .ok (a - b) else .error .overflow

namespace BoundedBufferChannelInner

variable {ω : Type}

def new : BoundedBufferChannelInner ω where
  buffers _ := none
  ringProducer := 0
  ringConsumer := 0
  error := none
  currentSize := 0
  len := 0
  closed := false
  readWaker := none
  writeWaker := none

section

variable (self : BoundedBufferChannelInner ω)

def stored : List Bytes :=
  ringElems self.buffers bufferChannelSize self.ringConsumer self.len

def nextUnsafe : Except ChannelFault Bytes :=
  match self.buffers self.ringConsumer with
  | some buffer => .ok buffer
  | none => .error .uninitialized

/-- Take the next buffer; it stays in its slot, which is now free. -/
def takeNextUnsafe : Except ChannelFault (Bytes × BoundedBufferChannelInner ω) := do
  let res ← self.nextUnsafe
  return (res, { self with ringConsumer := (self.ringConsumer + 1) % bufferChannelSize })

end

/-- The loop of `drain`, which goes around the ring at most once. -/
def drainLoop : ℕ → BoundedBufferChannelInner ω →
    Except ChannelFault (List Bytes × BoundedBufferChannelInner ω)
  | 0, _ => .error .diverged
  | fuel + 1, self =>
    if self.ringProducer ≠ self.ringConsumer then do
      let (res, self) ← self.takeNextUnsafe
      let (rest, self) ← drainLoop fuel self
      return (res :: rest, self)
    else return ([], self)

variable (self : BoundedBufferChannelInner ω)

def drain : Except ChannelFault (List Bytes × BoundedBufferChannelInner ω) := do
  let (slices, self) ← drainLoop bufferChannelSize self
  return (slices, { self with currentSize := 0, ringProducer := 0, ringConsumer := 0, len := 0 })

/-- The index the next buffer but one is written at. -/
def nextProducerIndex : ℕ :=
  (self.ringProducer + 1) % bufferChannelSize

def canRead : Bool :=
  self.closed || self.error.isSome || self.ringConsumer != self.ringProducer

def canWrite : Bool :=
  self.closed || self.error.isSome ||
    (self.nextProducerIndex != self.ringConsumer && self.currentSize < bufferBackpressureLimit)

/-- The part of `read` that takes the next buffer, or splits it if it is too long. -/
def takeUpTo (limit : ℕ) : Except ChannelFault (Bytes × BoundedBufferChannelInner ω) := do
  let buf ← self.nextUnsafe
  if buf.length ≤ limit then
    let currentSize ← checkedSub self.currentSize buf.length
    let len ← checkedSub self.len 1
    takeNextUnsafe { self with currentSize := currentSize, len := len }
  else
    let currentSize ← checkedSub self.currentSize limit
    let rest := buf.drop limit
    return (buf.take limit, { self with
      buffers := Function.update self.buffers self.ringConsumer (some rest)
      currentSize := currentSize })

/-- The end of `read`: the writer is woken if it can write again. -/
def wakeWriter : BoundedBufferChannelInner ω × List ω :=
  if self.writeWaker.isSome && self.canWrite then
    ({ self with writeWaker := none }, self.writeWaker.toList)
  else (self, [])

def read (limit : ℕ) : Except ChannelFault (ReadOutcome ω) :=
  if self.len = 0 then
    match self.error with
    | some error => .ok ⟨.error error, { self with error := none }, []⟩
    | none => .ok ⟨.ok none, self, []⟩
  else if limit ≥ bufferAggregationLimit ∧ self.currentSize ≤ bufferAggregationLimit ∧
      self.len > 1 then do
    let (slices, self) ← self.drain
    return ⟨.ok (some slices.flatten), { self with writeWaker := none }, self.writeWaker.toList⟩
  else do
    let (buf, self) ← self.takeUpTo limit
    if (self.currentSize == 0) ^^ (self.len == 0) then
      .error (.assertion "Length accounting mismatch")
    else
      let (self, woken) := self.wakeWriter
      return ⟨.ok (some buf), self, woken⟩

def isFull : Bool :=
  self.nextProducerIndex == self.ringConsumer

variable (buffer : Bytes)

/-- Put a buffer in; a full ring of a closed or failed channel drops it, and any other full ring
hands it back. -/
def write : Except ChannelFault (Except Bytes Unit × BoundedBufferChannelInner ω × List ω) :=
  if self.isFull then
    if self.closed || self.error.isSome then .ok (.ok (), self, [])
    else .ok (.error buffer, self, [])
  else
    let self' := { self with
      currentSize := self.currentSize + buffer.length
      buffers := Function.update self.buffers self.ringProducer (some buffer)
      ringProducer := self.nextProducerIndex
      len := self.len + 1 }
    if self'.ringProducer = self'.ringConsumer then
      .error (.assertion "self.ring_producer != self.ring_consumer")
    else .ok (.ok (), { self' with readWaker := none }, self.readWaker.toList)

def writeError (error : AnyError) : BoundedBufferChannelInner ω × List ω :=
  ({ self with error := some error, readWaker := none }, self.readWaker.toList)

def close : BoundedBufferChannelInner ω × List ω :=
  ({ self with closed := true, writeWaker := none, readWaker := none },
    self.writeWaker.toList ++ self.readWaker.toList)

/-- Whether a read is due; if not, the reader is woken later. -/
def pollReadReady (waker : ω) : Bool × BoundedBufferChannelInner ω :=
  if !self.canRead then (false, { self with readWaker := some waker })
  else (true, { self with readWaker := none })

/-- Whether a write is due; if not, the writer is woken later. -/
def pollWriteReady (waker : ω) : Bool × BoundedBufferChannelInner ω :=
  if !self.canWrite then (false, { self with writeWaker := some waker })
  else (true, { self with writeWaker := none })

/-! ### The write operations -/

/-- A write whose failure is a panic. -/
def writeUnwrap : Except ChannelFault (BoundedBufferChannelInner ω) := do
  match ← self.write buffer with
  | (.ok (), self, _) => return self
  | (.error _, _, _) => .error .unwrap

/-- `op_readable_stream_resource_write_buf`, once a write is due. -/
def writeBuf : Except ChannelFault (Bool × BoundedBufferChannelInner ω) := do
  let self ← self.writeUnwrap buffer
  return (!self.closed, self)

/-- `op_readable_stream_resource_write_sync`: 0 if the channel was closed, 1 after a write, 2 if
the channel was full. -/
def writeSync : Except ChannelFault (ℕ × BoundedBufferChannelInner ω) := do
  if self.canWrite then
    if self.closed then return (0, self)
    else
      let self ← self.writeUnwrap buffer
      return (1, self)
  else return (2, self)

end BoundedBufferChannelInner

end Deno
